/-
Stable insertion sort by a strict order given as a test.

Main statements: the sorted list is a rearrangement of the given one
(`perm_sortBy`), and, for a strict total order, nothing in it stands
before something smaller (`pairwise_sortBy`). An element goes in front
of the first one that is not smaller than it, so elements that the
order does not tell apart keep their places.
-/
namespace Automata

variable {α : Type}

/-- Puts an element in front of the first one that is not smaller. -/
def insertBy (lt : α → α → Bool) (x : α) : List α → List α
  | [] => [x]
  | y :: ys => if lt y x then y :: insertBy lt x ys else x :: y :: ys

/-- The elements in increasing order. -/
def sortBy (lt : α → α → Bool) (xs : List α) : List α :=
  xs.foldr (insertBy lt) []

@[simp] theorem sortBy_nil (lt : α → α → Bool) : sortBy lt [] = [] := rfl

@[simp] theorem sortBy_cons (lt : α → α → Bool) (x : α) (xs : List α) :
    sortBy lt (x :: xs) = insertBy lt x (sortBy lt xs) := rfl

theorem perm_insertBy (lt : α → α → Bool) (x : α) (ys : List α) :
    (insertBy lt x ys).Perm (x :: ys) := by
  induction ys with
  | nil => exact .refl _
  | cons y ys ih =>
    rw [insertBy]
    split
    · exact (ih.cons y).trans (.swap x y ys)
    · exact .refl _

theorem perm_sortBy (lt : α → α → Bool) (xs : List α) : (sortBy lt xs).Perm xs := by
  induction xs with
  | nil => exact .refl _
  | cons x xs ih => exact (perm_insertBy lt x _).trans (ih.cons x)

@[simp] theorem mem_sortBy {lt : α → α → Bool} {x : α} {xs : List α} :
    x ∈ sortBy lt xs ↔ x ∈ xs :=
  (perm_sortBy lt xs).mem_iff

@[simp] theorem length_sortBy (lt : α → α → Bool) (xs : List α) :
    (sortBy lt xs).length = xs.length :=
  (perm_sortBy lt xs).length_eq

theorem pairwise_insertBy {lt : α → α → Bool}
    (asymm : ∀ x y, lt x y = true → ¬lt y x = true)
    (trans : ∀ x y z, ¬lt y x = true → ¬lt z y = true → ¬lt z x = true) (x : α) (ys : List α)
    (h : ys.Pairwise fun a b => ¬lt b a = true) :
    (insertBy lt x ys).Pairwise fun a b => ¬lt b a = true := by
  induction ys with
  | nil => simp [insertBy]
  | cons y ys ih =>
    obtain ⟨hy, hys⟩ := List.pairwise_cons.1 h
    rw [insertBy]
    split
    · rename_i hlt
      refine List.pairwise_cons.2 ⟨fun z hz => ?_, ih hys⟩
      rcases List.mem_cons.1 ((perm_insertBy lt x ys).mem_iff.1 hz) with rfl | hz
      · exact asymm _ _ hlt
      · exact hy z hz
    · rename_i hlt
      refine List.pairwise_cons.2 ⟨fun z hz => ?_, h⟩
      rcases List.mem_cons.1 hz with rfl | hz
      · exact hlt
      · exact trans _ _ _ hlt (hy z hz)

theorem pairwise_sortBy {lt : α → α → Bool}
    (asymm : ∀ x y, lt x y = true → ¬lt y x = true)
    (trans : ∀ x y z, ¬lt y x = true → ¬lt z y = true → ¬lt z x = true) (xs : List α) :
    (sortBy lt xs).Pairwise fun a b => ¬lt b a = true := by
  induction xs with
  | nil => exact .nil
  | cons x xs ih => exact pairwise_insertBy asymm trans x _ ih

end Automata
