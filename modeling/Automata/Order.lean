/-
Comparisons, which tell how two values stand to each other: those of
numbers, and those of other values by a number or a part of them.

Main statements: the comparisons of numbers are total and tell different
numbers apart, and a comparison by a part is total if the part's is.
-/
import Std.Data.TreeSet

namespace Automata

/-- How two natural numbers stand to each other. -/
def compareNumbers (m n : Nat) : Ordering := if m < n then .lt else if n < m then .gt else .eq

/-- How two integers stand to each other. -/
def compareInts (m n : Int) : Ordering := if m < n then .lt else if n < m then .gt else .eq

instance : Std.TransCmp compareNumbers where
  eq_swap := by grind [compareNumbers, Ordering.swap]
  isLE_trans := by grind [compareNumbers, Ordering.isLE]

instance : Std.LawfulEqCmp compareNumbers where
  eq_of_compare := by grind [compareNumbers]

instance : Std.TransCmp compareInts where
  eq_swap := by grind [compareInts, Ordering.swap]
  isLE_trans := by grind [compareInts, Ordering.isLE]

instance : Std.LawfulEqCmp compareInts where
  eq_of_compare := by grind [compareInts]

variable {α β : Type} {part : α → β} {cmp : β → β → Ordering}

/-- How two values stand to each other by a part of them. -/
@[inline] def comparing (part : α → β) (cmp : β → β → Ordering) (x y : α) : Ordering :=
  cmp (part x) (part y)

theorem comparing_eq_iff [Std.LawfulEqCmp cmp] {x y : α} :
    comparing part cmp x y = .eq ↔ part x = part y := by
  rw [comparing, Std.LawfulEqCmp.compare_eq_iff_eq]

instance [Std.TransCmp cmp] : Std.TransCmp (comparing part cmp) where
  eq_swap {x y} := by
    rw [comparing, comparing]
    exact Std.OrientedCmp.eq_swap
  isLE_trans {x y z} := by
    rw [comparing, comparing, comparing]
    exact Std.TransCmp.isLE_trans

end Automata
