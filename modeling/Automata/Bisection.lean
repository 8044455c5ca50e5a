/-
Search by bisection in an array whose elements are in order.

What is sought is known by a test that tells how it stands to an
element: `lt` where it lies before the element, `gt` where it lies after
it, `eq` where it is the element. The array is `Bisectable` for the test
when every element before one that does not lie beyond what is sought
lies before it. Each step halves the stretch that may hold what is
sought; the count bounds the number of steps, so that the recursion is
on a number.

Main statement: bisection finds the index of what is sought whenever
there is one (`bisect_eq_some_iff`).
-/
namespace Automata

variable {α : Type}

/-- The index, within a stretch of an array, of the element that the
test is after. -/
def bisectFrom (test : α → Ordering) (xs : Array α) : Nat → Nat → Nat → Option Nat
  | 0, _, _ => none
  | n + 1, low, high =>
    if low < high then
      match xs[(low + high) / 2]?.map test with
      | some .lt => bisectFrom test xs n low ((low + high) / 2)
      | some .eq => some ((low + high) / 2)
      | some .gt => bisectFrom test xs n ((low + high) / 2 + 1) high
      | none => none
    else none

/-- The index of the element that the test is after. -/
def bisect (test : α → Ordering) (xs : Array α) : Option Nat :=
  bisectFrom test xs xs.size 0 xs.size

/-- What comes before an element that does not lie beyond what is sought
lies before what is sought. -/
def Bisectable (test : α → Ordering) (xs : List α) : Prop :=
  xs.Pairwise fun x y => test y ≠ .lt → test x = .gt

theorem Bisectable.test_eq_gt {test : α → Ordering} {xs : Array α} (h : Bisectable test xs.toList)
    {i j : Nat} (hij : i < j) (hi : i < xs.size) (hj : j < xs.size) (ht : test xs[j] ≠ .lt) :
    test xs[i] = .gt := by
  have := List.pairwise_iff_getElem.1 h i j (by simpa using hi)
    (by simpa using hj) hij
  simp only [Array.getElem_toList] at this
  exact this ht

theorem test_of_bisectFrom {test : α → Ordering} {xs : Array α} {n low high i : Nat}
    (h : bisectFrom test xs n low high = some i) : xs[i]?.map test = some .eq := by
  induction n generalizing low high with
  | zero => simp [bisectFrom] at h
  | succ n ih =>
    rw [bisectFrom] at h
    split at h
    · split at h
      · exact ih h
      · rename_i ht
        cases h
        exact ht
      · exact ih h
      · cases h
    · cases h

theorem bisectFrom_eq_some {test : α → Ordering} {xs : Array α} (h : Bisectable test xs.toList)
    {n low high i : Nat} (hn : high - low ≤ n) (hl : low ≤ i) (hh : i < high)
    (hs : high ≤ xs.size) (ht : xs[i]?.map test = some .eq) :
    bisectFrom test xs n low high = some i := by
  have hix : i < xs.size := by omega
  have hi : test xs[i] = .eq := by simpa [Array.getElem?_eq_getElem hix] using ht
  induction n generalizing low high with
  | zero => omega
  | succ n ih =>
    rw [bisectFrom, if_pos (by omega)]
    have hm : (low + high) / 2 < xs.size := by omega
    rw [Array.getElem?_eq_getElem hm, Option.map_some]
    rcases Nat.lt_trichotomy i ((low + high) / 2) with hlt | rfl | hlt
    · have hmid : test xs[(low + high) / 2] = .lt := Decidable.byContradiction fun hne => by
        rw [h.test_eq_gt hlt hix hm hne] at hi
        cases hi
      simp only [hmid]
      exact ih (by omega) hl hlt (by omega)
    · simp only [hi]
    · have hmid := h.test_eq_gt hlt hm hix (by rw [hi]; decide)
      simp only [hmid]
      exact ih (by omega) (by omega) hh hs

/-- Bisection finds the index of what is sought, and of nothing else. -/
theorem bisect_eq_some_iff {test : α → Ordering} {xs : Array α} (h : Bisectable test xs.toList)
    {i : Nat} : bisect test xs = some i ↔ xs[i]?.map test = some .eq := by
  refine ⟨test_of_bisectFrom, fun ht => ?_⟩
  have hi : i < xs.size := by
    obtain ⟨x, hx, -⟩ := Option.map_eq_some_iff.1 ht
    exact (Array.getElem?_eq_some_iff.1 hx).1
  exact bisectFrom_eq_some h (by omega) (Nat.zero_le i) hi (Nat.le_refl _) ht

end Automata
