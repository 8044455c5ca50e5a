/-
The distinct elements of a list, in the order of their first occurrences.

Main statements: the elements are kept (`mem_distinct`) and none is kept
twice (`nodup_distinct`).
-/
namespace Automata

variable {α : Type} [DecidableEq α]

/-- The elements without repetitions; of equal ones the first is kept. -/
def distinct (xs : List α) : List α :=
  xs.foldr (fun x rest => x :: rest.filter fun y => decide (y ≠ x)) []

@[simp] theorem distinct_nil : distinct ([] : List α) = [] := rfl

@[simp] theorem distinct_cons (x : α) (xs : List α) :
    distinct (x :: xs) = x :: (distinct xs).filter fun y => decide (y ≠ x) := rfl

@[simp] theorem mem_distinct {x : α} {xs : List α} : x ∈ distinct xs ↔ x ∈ xs := by
  induction xs with
  | nil => simp
  | cons y xs ih =>
    simp only [distinct_cons, List.mem_cons, List.mem_filter, ih, decide_eq_true_eq]
    by_cases h : x = y <;> simp [h]

theorem nodup_distinct (xs : List α) : (distinct xs).Nodup := by
  induction xs with
  | nil => exact .nil
  | cons x xs ih =>
    refine List.nodup_cons.2 ⟨fun h => ?_, ih.filter _⟩
    simp at h

/-- In another order the same is left, in another order. -/
theorem perm_distinct {xs ys : List α} (h : xs.Perm ys) : (distinct xs).Perm (distinct ys) := by
  refine (List.perm_ext_iff_of_nodup (nodup_distinct xs) (nodup_distinct ys)).2 fun x => ?_
  rw [mem_distinct, mem_distinct, h.mem_iff]

end Automata
