/-
The map from the reachable states of an automaton to the states of the
minimal one.

The map is read off the index of the last partition, and the minimal
automaton off the least members of its blocks. Both number the blocks in
one order, so a state is mapped to the number of its block
(`Minimizes.get?_mapping_eq_some_iff`), and what holds of these numbers
holds of the map: it is onto, and keeps the start, acceptance and where
letters lead, for every member of a block and not only for the least.

# When nothing is merged

A map of the reachable states onto the new ones is one to one exactly
when there are equally many of them (`Minimizes.injective_iff_size_eq`).
It then renames states, and the other way round automata of which one is
a renaming of the other have equally many states. So no state is removed
exactly when the map is one to one, and exactly when the reachable part
is isomorphic to the minimal automaton.
-/
import Automata.Proofs.Canonical
import Automata.Proofs.Numbered

namespace Automata

-- ================================================== maps to symbols

namespace SymbolMap

variable {f : SymbolMap Symbol} {x y : Symbol}

/-- The values of a map to symbols. -/
def values (f : SymbolMap Symbol) : SymbolSet := .ofList (f.toList.map Prod.snd)

/-- No two keys have one value. -/
def Injective (f : SymbolMap Symbol) : Prop :=
  ∀ x y v, f.get? x = some v → f.get? y = some v → x ≈ y

/-- The key is mapped to the value, and no smaller one is. -/
def LeastTo (f : SymbolMap Symbol) (x v : Symbol) : Prop :=
  f.get? x = some v ∧ ∀ y, f.get? y = some v → ¬y < x

theorem mem_map_snd_iff {v : Symbol} : v ∈ f.toList.map Prod.snd ↔ ∃ x, f.get? x = some v := by
  simp only [List.mem_map, Prod.exists, exists_eq_right, get?_eq_some_iff]
  constructor
  · intro h
    obtain ⟨x, hx⟩ := h
    exact ⟨x, x, hx, Setoid.refl x⟩
  · intro h
    obtain ⟨-, x, hx, -⟩ := h
    exact ⟨x, hx⟩

end SymbolMap

namespace Automaton

open Automata.Partition

/-- The map takes the states in a set onto those of another automaton, in
one order, and keeps the start, acceptance and where letters lead. -/
structure QuotientMap (A M : Automaton) (S : SymbolSet) (f : SymbolMap Symbol) : Prop where
  keys : f.keys ≈ S
  values : f.values = M.states
  start : f.get? A.start = some M.start
  transition : ∀ s ∈ S, ∀ c ∈ A.alphabet, ∃ t i j, A.transition s c = .ok t ∧
    f.get? s = some i ∧ M.transition i c = .ok j ∧ f.get? t = some j
  accepting : ∀ s ∈ S, ∃ i, f.get? s = some i ∧ (s ∈ A.accepting ↔ i ∈ M.accepting)
  ordered : ∀ i ∈ M.states.toList, ∀ j ∈ M.states.toList, i < j →
    ∃ a b, f.LeastTo a i ∧ f.LeastTo b j ∧ a < b

variable {A : Automaton} {m : Minimization} {s v : Symbol}

-- ======================================================= the mapping

/-- A symbol is mapped to the number of the block that it lies in. -/
theorem get?_mapping (m : Minimization) (s : Symbol) :
    m.mapping.get? s = (m.partition.blockOf? s).map .ofNat := by
  unfold Minimization.mapping Partition.blockOf?
  rw [SymbolMap.get?_filterMap]
  unfold SymbolMap.get?
  rw [Option.map_map]
  exact (Option.map_eq_bind ..).symm

namespace Minimizes

/-- The states of the reachable part are mapped, each to its number. -/
theorem get?_mapping_eq_some_iff (h : Minimizes m A) : m.mapping.get? s = some v ↔
    s ∈ m.pruned.states ∧ v = .ofNat (m.partition.number s) := by
  rw [get?_mapping, Option.map_eq_some_iff]
  constructor
  · intro hv
    obtain ⟨i, hi, rfl⟩ := hv
    obtain ⟨b, hb, hsb⟩ := blockOf?_eq_some_iff.1 hi
    refine ⟨h.covers.mem_states_of_mem (List.mem_of_getElem? hb) hsb, ?_⟩
    rw [h.covers.number_eq hb hsb]
  · intro hs
    obtain ⟨hs, rfl⟩ := hs
    exact ⟨_, h.covers.blockOf?_eq hs, rfl⟩

theorem get?_mapping_eq_number (h : Minimizes m A) (hs : s ∈ m.pruned.states) :
    m.mapping.get? s = some (.ofNat (m.partition.number s)) :=
  h.get?_mapping_eq_some_iff.2 ⟨hs, rfl⟩

theorem ofNat_number_mem (h : Minimizes m A) (hs : s ∈ m.pruned.states) :
    .ofNat (m.partition.number s) ∈ m.minimized.states :=
  h.minimized.mem_states_iff.2 ⟨_, h.covers.number_lt hs, Setoid.refl _⟩

theorem numbered (h : Minimizes m A) (hm : A.minimization = .ok m) : m.minimized.Numbered := by
  obtain ⟨-, -, hrebuild⟩ := minimization_eq_ok_iff.1 hm
  exact (of_rebuild h.covers hrebuild).2

theorem keys_mapping (h : Minimizes m A) : m.mapping.keys ≈ A.reached := by
  refine SymbolSet.alike_iff.2 fun s => ?_
  rw [SymbolMap.mem_keys, Option.isSome_iff_exists, ← h.pruned.mem_states_iff]
  simp only [h.get?_mapping_eq_some_iff, exists_and_left, exists_eq, and_true]

/-- The values are the new states. -/
theorem values_mapping (h : Minimizes m A) (hm : A.minimization = .ok m) :
    m.mapping.values = m.minimized.states := by
  refine SymbolSet.ofList_eq fun v => ?_
  rw [SymbolMap.mem_map_snd_iff, (h.numbered hm).mem_toList_states_iff, h.minimized.size]
  simp only [h.get?_mapping_eq_some_iff]
  constructor
  · intro hv
    obtain ⟨s, hs, rfl⟩ := hv
    exact ⟨_, h.covers.number_lt hs, rfl⟩
  · intro hv
    obtain ⟨i, hi, rfl⟩ := hv
    obtain ⟨s, hs, rfl⟩ := h.covers.exists_number hi
    exact ⟨s, hs, rfl⟩

/-- The representative of a block is the least state with its number. -/
theorem leastTo_representative (h : Minimizes m A) {i : Nat} {r : Symbol}
    (hr : m.partition.representatives[i]? = some r) : m.mapping.LeastTo r (.ofNat i) := by
  obtain ⟨hmem, hnumber⟩ := h.covers.of_getElem?_representatives hr
  refine ⟨h.get?_mapping_eq_some_iff.2 ⟨hmem, by rw [hnumber]⟩, fun y hy => ?_⟩
  obtain ⟨hy, hyi⟩ := h.get?_mapping_eq_some_iff.1 hy
  exact h.covers.not_lt_representative hr hy (Symbol.ofNat_inj.1 hyi).symm

/-- Blocks are numbered in the order of their least states. -/
theorem exists_leastTo_lt (h : Minimizes m A) {i j : Nat} (hij : i < j)
    (hj : j < m.minimized.size) :
    ∃ a b, m.mapping.LeastTo a (.ofNat i) ∧ m.mapping.LeastTo b (.ofNat j) ∧ a < b := by
  rw [h.minimized.size] at hj
  obtain ⟨a, ha, -⟩ := h.covers.exists_representative (Nat.lt_trans hij hj)
  obtain ⟨b, hb, -⟩ := h.covers.exists_representative hj
  refine ⟨a, b, h.leastTo_representative ha, h.leastTo_representative hb, ?_⟩
  obtain ⟨hi', rfl⟩ := List.getElem?_eq_some_iff.1 ha
  obtain ⟨hj', rfl⟩ := List.getElem?_eq_some_iff.1 hb
  exact List.pairwise_iff_getElem.1 m.partition.pairwise_representatives i j hi' hj' hij

theorem quotientMap (h : Minimizes m A) (hm : A.minimization = .ok m) :
    A.QuotientMap m.minimized A.reached m.mapping where
  keys := h.keys_mapping
  values := h.values_mapping hm
  start := by
    rw [← h.pruned.start, h.get?_mapping_eq_number m.pruned.start_mem, h.minimized.start]
  transition := by
    intro s hs c hc
    have hs' := h.pruned.mem_states_iff.2 hs
    have hc' : c ∈ m.pruned.alphabet := by rwa [h.pruned.alphabet]
    have hnext := h.minimized.next_number h.covers h.stable hs' hc'
    refine ⟨_, _, _, transition_eq_ok (mem_states_of_mem_reached hs) hc,
      h.get?_mapping_eq_number hs',
      transition_eq_ok (h.ofNat_number_mem hs') (h.alphabet ▸ hc), ?_⟩
    rw [hnext, ← h.pruned.next hs]
    exact h.get?_mapping_eq_number (next_mem hs' hc')
  accepting := by
    intro s hs
    have hs' := h.pruned.mem_states_iff.2 hs
    refine ⟨_, h.get?_mapping_eq_number hs', ?_⟩
    rw [h.minimized.accepting_number h.covers h.pure hs', h.pruned.accepting hs]
  ordered := by
    intro i hi j hj hij
    obtain ⟨k, -, rfl⟩ := (h.numbered hm).mem_toList_states_iff.1 hi
    obtain ⟨l, hl, rfl⟩ := (h.numbered hm).mem_toList_states_iff.1 hj
    exact h.exists_leastTo_lt (Symbol.ofNat_lt_ofNat_iff.1 hij) hl

-- =============================================== when nothing is merged

theorem injective_iff (h : Minimizes m A) : m.mapping.Injective ↔
    ∀ s ∈ m.pruned.states, ∀ t ∈ m.pruned.states,
      m.partition.number s = m.partition.number t → s ≈ t := by
  constructor
  · intro hinj s hs t ht hst
    refine hinj s t _ (h.get?_mapping_eq_number hs) ?_
    rw [hst]
    exact h.get?_mapping_eq_number ht
  · intro hinj s t v hsv htv
    obtain ⟨hs, rfl⟩ := h.get?_mapping_eq_some_iff.1 hsv
    obtain ⟨ht, hst⟩ := h.get?_mapping_eq_some_iff.1 htv
    exact hinj s hs t ht (Symbol.ofNat_inj.1 hst)

/-- The map is one to one when there are as many new states as old ones. -/
theorem injective_iff_size_eq (h : Minimizes m A) :
    m.mapping.Injective ↔ m.pruned.size = m.minimized.size := by
  have hmem : ∀ s ∈ m.pruned.states, Symbol.ofNat (m.partition.number s) ∈ m.minimized.states :=
    fun s hs => h.ofNat_number_mem hs
  rw [h.injective_iff]
  constructor
  · intro hinj
    refine Nat.le_antisymm ?_ ?_
    · refine SymbolSet.size_le_of_injective _ hmem fun s hs t ht hst => ?_
      exact hinj s hs t ht (Symbol.ofNat_alike_iff.1 hst)
    · rw [h.minimized.size]
      exact h.covers.size_le
  · intro hsize s hs t ht hst
    refine SymbolSet.alike_of_surjective (fun s => .ofNat (m.partition.number s)) ?_ hmem ?_
      (Nat.le_of_eq hsize) hs ht (Symbol.ofNat_alike_iff.2 hst)
    · intro x y hxy
      exact Symbol.ofNat_alike_iff.2 (number_congr hxy)
    · intro t ht
      obtain ⟨s, hs, hts⟩ := h.exists_number ht
      exact ⟨s, hs, Setoid.symm hts⟩

theorem removed_eq_zero_iff (h : Minimizes m A) : m.removed = 0 ↔ m.mapping.Injective := by
  rw [h.injective_iff_size_eq]
  unfold Minimization.removed
  omega

/-- A map that is one to one renames the states of the reachable part. -/
theorem renames (h : Minimizes m A) (hinj : m.mapping.Injective) :
    m.pruned.Renames m.minimized fun s => .ofNat (m.partition.number s) where
  mem := h.ofNat_number_mem
  alike_iff := by
    intro s t hs ht
    rw [Symbol.ofNat_alike_iff]
    exact ⟨h.injective_iff.1 hinj s hs t ht, number_congr⟩
  exists_alike := by
    intro t ht
    obtain ⟨s, hs, hts⟩ := h.exists_number ht
    exact ⟨s, hs, Setoid.symm hts⟩
  start := h.minimized.start ▸ Setoid.refl _
  accepting := fun hs => h.minimized.accepting_number h.covers h.pure hs
  next := fun hs hc => h.minimized.next_number h.covers h.stable hs hc ▸ Setoid.refl _

/-- The reachable part is isomorphic to the minimal automaton exactly when
the map is one to one. -/
theorem exists_isomorphic (h : Minimizes m A) (hnull : ¬Symbol.null ∈ A.states) :
    ∃ b, m.pruned.isomorphic m.minimized = .ok b ∧ (b = true ↔ m.mapping.Injective) := by
  have hpruned : ¬Symbol.null ∈ m.pruned.states := fun hmem =>
    hnull (mem_states_of_mem_reached (h.pruned.mem_states_iff.1 hmem))
  obtain ⟨b, hb, hiff⟩ := Automaton.exists_isomorphic hpruned h.null_not_mem
  refine ⟨b, hb, hiff.trans ⟨fun hrenames => ?_, fun hinj => ?_⟩⟩
  · obtain ⟨-, f, hf⟩ := hrenames
    exact h.injective_iff_size_eq.2 hf.size_eq
  · exact ⟨h.simulation.alphabet, _, h.renames hinj⟩

end Minimizes

/-- The mapping of a minimization is a map of the reachable states onto
the new states, which are numbers. It is one to one exactly when no state
was removed, and exactly when the reachable part is isomorphic to the
minimal automaton. -/
theorem minimization_quotientMap (h : A.Minimizable) :
    ∃ S m, A.reachable = .ok S ∧ A.minimization = .ok m ∧
      m.minimized.states.toList = (List.range m.minimized.size).map .ofNat ∧
      A.QuotientMap m.minimized S m.mapping ∧
      (m.removed = 0 ↔ m.mapping.Injective) ∧
      ∃ b, m.pruned.isomorphic m.minimized = .ok b ∧ (b = true ↔ m.mapping.Injective) := by
  obtain ⟨m, hm, hspec⟩ := exists_minimization h
  exact ⟨A.reached, m, reachable_eq_ok h.null_not_mem, hm, (hspec.numbered hm).toList_states,
    hspec.quotientMap hm,
    hspec.removed_eq_zero_iff, hspec.exists_isomorphic h.null_not_mem⟩

theorem minimization_quotientMap_modFour :
    modFour.Minimizable ∧ ∃ S m, modFour.reachable = .ok S ∧ modFour.minimization = .ok m ∧
      m.minimized.states.toList = (List.range m.minimized.size).map .ofNat ∧
      modFour.QuotientMap m.minimized S m.mapping ∧
      (m.removed = 0 ↔ m.mapping.Injective) ∧
      ∃ b, m.pruned.isomorphic m.minimized = .ok b ∧ (b = true ↔ m.mapping.Injective) :=
  have h : modFour.Minimizable := by decide
  ⟨h, minimization_quotientMap h⟩

example : modFour.minimization.map (fun m => (m.removed, m.mapping.toList)) =
    .ok (2, [(.int 0, .int 0), (.int 1, .int 1), (.int 2, .int 0), (.int 3, .int 1)]) := by
  decide +kernel

end Automaton

end Automata
