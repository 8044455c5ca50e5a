/-
Computations in stages: when operations in a row give a result, and what
an operation makes of a list.
-/
import Mathlib.Data.List.Forall2

namespace Automata

variable {α β ε : Type}

theorem exists_of_isOk {x : Except ε α} (h : x.isOk = true) : ∃ a, x = .ok a := by
  cases x with
  | error e => cases h
  | ok a => exact ⟨a, rfl⟩

/-- Two operations in a row give a result when the first gives one on which
the second does. -/
theorem bind_eq_ok_iff {x : Except ε α} {f : α → Except ε β} {b : β} :
    x >>= f = .ok b ↔ ∃ a, x = .ok a ∧ f a = .ok b := by
  cases x with
  | error e =>
      refine iff_of_false (fun h => nomatch h) fun h => ?_
      obtain ⟨a, ha, -⟩ := h
      cases ha
  | ok a =>
      refine ⟨fun h => ⟨a, rfl, h⟩, fun h => ?_⟩
      obtain ⟨_, ha, h⟩ := h
      cases ha
      exact h

/-- What an operation gives is mapped. -/
theorem map_eq_ok_iff {x : Except ε α} {f : α → β} {b : β} :
    f <$> x = .ok b ↔ ∃ a, x = .ok a ∧ f a = b := by
  rw [map_eq_pure_bind, bind_eq_ok_iff]
  simp only [pure, Except.pure, Except.ok.injEq]

/-- A list on all of whose elements an operation gives a result is mapped
to the results. -/
theorem mapM_eq_ok {f : α → Except ε β} {g : α → β} {xs : List α}
    (h : ∀ x ∈ xs, f x = .ok (g x)) : xs.mapM f = .ok (xs.map g) := by
  induction xs with
  | nil => rfl
  | cons x xs ih =>
      obtain ⟨hx, hxs⟩ := List.forall_mem_cons.1 h
      rw [List.mapM_cons, hx, ih hxs]
      rfl

/-- A list is mapped to a list when the operation gives its results, one
by one. -/
theorem mapM_eq_ok_iff {f : α → Except ε β} {xs : List α} {ys : List β} :
    xs.mapM f = .ok ys ↔ List.Forall₂ (fun x y => f x = .ok y) xs ys := by
  induction xs generalizing ys with
  | nil =>
      rw [List.mapM_nil, List.forall₂_nil_left_iff]
      exact ⟨fun h => (Except.ok.inj h).symm, fun h => congrArg Except.ok h.symm⟩
  | cons x xs ih =>
      rw [List.mapM_cons, bind_eq_ok_iff, List.forall₂_cons_left_iff]
      refine exists_congr fun y => ?_
      rw [bind_eq_ok_iff]
      constructor
      · intro h
        obtain ⟨hy, zs, hzs, h⟩ := h
        exact ⟨zs, hy, ih.1 hzs, (Except.ok.inj h).symm⟩
      · intro h
        obtain ⟨zs, hy, hzs, h⟩ := h
        exact ⟨hy, zs, ih.2 hzs, congrArg Except.ok h.symm⟩

/-- A condition on the second of related elements can be split off. -/
theorem forall₂_and_right {R : α → β → Prop} {p : β → Prop} {xs : List α} {ys : List β} :
    List.Forall₂ (fun x y => R x y ∧ p y) xs ys ↔ List.Forall₂ R xs ys ∧ ∀ y ∈ ys, p y := by
  constructor
  · intro h
    induction h with
    | nil => exact ⟨.nil, fun y hy => absurd hy List.not_mem_nil⟩
    | cons hxy _ ih => exact ⟨.cons hxy.1 ih.1, List.forall_mem_cons.2 ⟨hxy.2, ih.2⟩⟩
  · intro h
    obtain ⟨h, hp⟩ := h
    induction h with
    | nil => exact .nil
    | cons hxy _ ih =>
        obtain ⟨hy, hp⟩ := List.forall_mem_cons.1 hp
        exact .cons ⟨hxy, hy⟩ (ih hp)

end Automata
