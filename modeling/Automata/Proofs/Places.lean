/-
Places: the members of a set of symbols by number.

A member has the number of its place in order of size, and each number
below the size is that of a member. What is proved of numbers, of shapes
and of how many there are, is carried over to sets of symbols through
`place` and `member`, which undo each other up to how a symbol is
written.
-/
import Mathlib.Data.Finset.Card
import Automata.Symbol.Set

namespace Automata.SymbolSet

variable {S T : SymbolSet} {x y : Symbol} {i : Nat}

/-- The place of a symbol among the members. -/
def place (S : SymbolSet) (x : Symbol) : Nat := (S.position? x).getD 0

/-- The member at a place. -/
def member (S : SymbolSet) (i : Nat) : Symbol := S.members.getD i .null

theorem members_getElem? (hi : i < S.size) : S.members[i]? = some (S.member i) := by
  have hsome : S.members[i]? = some S.members[i] := Array.getElem?_eq_getElem hi
  unfold member
  rw [Array.getD_eq_getD_getElem?, hsome, Option.getD_some]

theorem member_mem_toList (hi : i < S.size) : S.member i ∈ S.toList :=
  Array.mem_toList_iff.2 (Array.mem_of_getElem? (members_getElem? hi))

theorem member_mem (hi : i < S.size) : S.member i ∈ S := mem_of_mem_toList (member_mem_toList hi)

theorem position?_eq_place (hx : x ∈ S) : S.position? x = some (S.place x) := by
  obtain ⟨y, hy, hxy⟩ := hx
  obtain ⟨i, hi⟩ := Array.mem_iff_getElem?.1 (Array.mem_toList_iff.1 hy)
  have hposition := position?_eq_some_iff.2 ⟨y, hi, hxy⟩
  unfold place
  rw [hposition, Option.getD_some]

theorem place_lt (hx : x ∈ S) : S.place x < S.size := by
  obtain ⟨y, hy, -⟩ := position?_eq_some_iff.1 (position?_eq_place hx)
  exact (Array.getElem?_eq_some_iff.1 hy).1

/-- A symbol is alike to the member at its place. -/
theorem alike_member_place (hx : x ∈ S) : x ≈ S.member (S.place x) := by
  obtain ⟨y, hy, hxy⟩ := position?_eq_some_iff.1 (position?_eq_place hx)
  rw [members_getElem? (place_lt hx), Option.some.injEq] at hy
  rwa [hy]

@[simp] theorem place_member (hi : i < S.size) : S.place (S.member i) = i := by
  have hposition := position?_eq_some_iff.2 ⟨_, members_getElem? hi, Setoid.refl _⟩
  unfold place
  rw [hposition, Option.getD_some]

theorem position?_congr (h : x ≈ y) : S.position? x = S.position? y := by
  have horder : (x.order ·) = (y.order ·) :=
    funext fun z => Symbol.order_congr h (Setoid.refl z)
  unfold position?
  rw [horder]

theorem place_congr (h : x ≈ y) : S.place x = S.place y := by
  unfold place
  rw [position?_congr h]

theorem place_eq_iff (hx : x ∈ S) (hy : y ∈ S) : S.place x = S.place y ↔ x ≈ y := by
  refine ⟨fun h => ?_, place_congr⟩
  have hxy := alike_member_place hx
  rw [h] at hxy
  exact Setoid.trans hxy (Setoid.symm (alike_member_place hy))

/-- A set is mapped one to one into another that is at least as large. -/
theorem size_le_of_injective (f : Symbol → Symbol) (hf : ∀ s ∈ S, f s ∈ T)
    (hinj : ∀ s ∈ S, ∀ t ∈ S, f s ≈ f t → s ≈ t) : S.size ≤ T.size := by
  have hcard : (Finset.range S.size).card ≤ (Finset.range T.size).card := by
    refine Finset.card_le_card_of_injOn (fun i => T.place (f (S.member i))) ?_ ?_
    · intro i hi
      have hmem := member_mem (Finset.mem_range.1 hi)
      exact Finset.mem_range.2 (place_lt (hf _ hmem))
    · intro i hi j hj hij
      have hi := Finset.mem_range.1 hi
      have hj := Finset.mem_range.1 hj
      have hf' := (place_eq_iff (hf _ (member_mem hi)) (hf _ (member_mem hj))).1 hij
      have halike := hinj _ (member_mem hi) _ (member_mem hj) hf'
      rw [← place_member hi, ← place_member hj, place_congr halike]
  rwa [Finset.card_range, Finset.card_range] at hcard

/-- A set mapped onto another that is at least as large is mapped one to
one. -/
theorem alike_of_surjective (f : Symbol → Symbol) (hcongr : ∀ s t, s ≈ t → f s ≈ f t)
    (hf : ∀ s ∈ S, f s ∈ T) (hsurj : ∀ t ∈ T, ∃ s ∈ S, f s ≈ t) (hsize : S.size ≤ T.size)
    (hx : x ∈ S) (hy : y ∈ S) (hxy : f x ≈ f y) : x ≈ y := by
  have hplace : ∀ {z}, z ∈ S → T.place (f (S.member (S.place z))) = T.place (f z) := fun hz =>
    place_congr (hcongr _ _ (Setoid.symm (alike_member_place hz)))
  have hinj : Set.InjOn (fun i => T.place (f (S.member i))) (Finset.range S.size) := by
    refine Finset.injOn_of_surjOn_of_card_le (t := Finset.range T.size) _ ?_ ?_ ?_
    · intro i hi
      have hmem := member_mem (Finset.mem_range.1 hi)
      exact Finset.mem_coe.2 (Finset.mem_range.2 (place_lt (hf _ hmem)))
    · intro j hj
      have hj := Finset.mem_range.1 hj
      obtain ⟨s, hs, hst⟩ := hsurj _ (member_mem hj)
      refine ⟨S.place s, Finset.mem_coe.2 (Finset.mem_range.2 (place_lt hs)), ?_⟩
      show T.place _ = j
      rw [hplace hs, place_congr hst, place_member hj]
    · rwa [Finset.card_range, Finset.card_range]
  refine (place_eq_iff hx hy).1 (hinj ?_ ?_ ?_)
  · exact Finset.mem_coe.2 (Finset.mem_range.2 (place_lt hx))
  · exact Finset.mem_coe.2 (Finset.mem_range.2 (place_lt hy))
  · show T.place _ = T.place _
    rw [hplace hx, hplace hy, place_congr hxy]

/-- Of sets with the same members, what does not depend on how symbols are
written is the same at each place. -/
theorem map_toList_congr {α : Type} (h : S ≈ T) {f : Symbol → α} (hf : ∀ x y, x ≈ y → f x = f y) :
    S.toList.map f = T.toList.map f := by
  have hplain : ∀ R : SymbolSet, R.toList.map f = R.plain.toList.map f := by
    intro R
    show _ = (R.members.map Symbol.plain).toList.map f
    rw [Array.toList_map, List.map_map]
    exact List.map_congr_left fun x _ => (hf _ _ (Symbol.plain_alike x)).symm
  have hsame : S.plain = T.plain := h
  rw [hplain S, hplain T, hsame]

end Automata.SymbolSet
