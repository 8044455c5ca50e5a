/-
Shapes: what is left of an automaton without the names of its states and
letters.

States and letters are numbered in order of size. Two automata over one
alphabet differ in the names of their states only when their shapes are
the same up to the numbers of the states. Whether they are is decided by
a search over colourings. A colouring gives each state of either shape a
number, at first by what words lead to from the state; a round of
refinement colours each state anew, by its own colour and the colours of
the states that it leads to and that lead to it, so that states which
correspond to each other stay of one colour. When the rounds no longer
tell more states apart, states of one colour are paired in order. If
that does not take the one shape to the other, a state among several of
one colour gets a colour of its own, and a state of the other shape the
same, each that may correspond to it in turn. When one was tried in vain,
so would be every other that a renaming of that shape takes it to, and
these are passed over.
-/
import Automata.Automaton.Basic
import Automata.Order
import Std.Data.TreeMap

namespace Automata

/-- An automaton with numbers for names: whether each state accepts, and
where the letters lead from it. -/
structure Shape where
  start : Nat
  accepting : Array Bool
  moves : Array (List Nat)
  deriving DecidableEq

namespace Shape

/-- The number of states. -/
def size (S : Shape) : Nat := S.moves.size

/-- Where the letters lead from a state. -/
def targets (S : Shape) (i : Nat) : List Nat := S.moves[i]?.getD []

/-- Whether a numbering takes the one shape to the other, and another
numbering undoes it. -/
def renamedBy (S T : Shape) (there back : Array Nat) : Bool :=
  S.size == T.size && there.getD S.start 0 == T.start &&
  (List.range S.size).all fun i =>
    let j := there.getD i 0
    decide (j < T.size) && back.getD j 0 == i && S.accepting[i]? == T.accepting[j]? &&
      (S.targets i).map (there.getD · 0) == T.targets j

-- =========================================================== colourings

/-- The states, each with its letter, that lead to each state. -/
def sources (S : Shape) : Array (List (Nat × Nat)) :=
  S.moves.toList.zipIdx.foldl (fun into (row, i) =>
      row.zipIdx.foldl (fun into (j, c) => into.modify j ((c, i) :: ·)) into)
    (Array.replicate S.size [])

/-- What can be told of a state by itself, as a number below 4. -/
def mark (S : Shape) (i : Nat) : Nat :=
  (if i = S.start then 1 else 0) + if S.accepting.getD i false then 2 else 0

/-- What a walk through pending states and all that they lead to meets:
the mark of a state that is met for the first time, the number among the
states met for one that is met again. -/
def walk (S : Shape) :
    Nat → Std.TreeMap Nat Nat compareNumbers → List Nat → List Nat
  | 0, _, _ => []
  | _ + 1, _, [] => []
  | n + 1, met, i :: pending =>
    match met[i]? with
    | some k => (k + 4) :: S.walk n met pending
    | none => S.mark i :: S.walk n (met.insert i met.size) (S.targets i ++ pending)

/-- What words lead to from a state, whatever the names of the states. -/
def outline (S : Shape) (i : Nat) : List Nat :=
  S.walk (1 + S.size * (S.targets i).length) ∅ [i]

/-- A colour for each state. -/
abbrev Colouring := Array Nat

/-- What can be told of a state in a colouring: its colour, the colours
that the letters lead to, and with each letter the colours that it comes
from, in order. -/
def view (S : Shape) (into : Array (List (Nat × Nat))) (κ : Colouring) (i : Nat) : List Nat :=
  let colour (j : Nat) : Nat := κ.getD j 0
  let width := (S.targets i).length
  colour i :: (S.targets i).map colour ++
    ((into.getD i []).map fun (c, j) => width * colour j + c).mergeSort fun m n => decide (m ≤ n)

/-- A number for each of the lists, the same for the same. -/
def palette (views : List (List Nat)) :
    Std.TreeMap (List Nat) Nat (List.compareLex compareNumbers) :=
  views.foldl (fun t v => t.insertIfNew v t.size) ∅

/-- The states in the order of their colours. -/
def ranked (κ : Colouring) : List Nat :=
  (List.range κ.size).mergeSort fun i j => decide (κ.getD i 0 ≤ κ.getD j 0)

/-- The first of several states of one colour that follow one another. -/
def shared? (κ : Colouring) : List Nat → Option Nat
  | i :: j :: rest => if κ.getD i 0 = κ.getD j 0 then some i else shared? κ (j :: rest)
  | _ => none

/-- The numbering that takes each state to the one at its place. -/
def pairing (size : Nat) (xs ys : List Nat) : Array Nat :=
  (xs.zip ys).foldl (fun t (i, j) => t.setIfInBounds i j) (Array.replicate size 0)

end Shape

-- =============================================================== search

/-- Whether some element passes a test, of the elements that are not like
one that is known to fail it. -/
def anyUpTo {α : Type} (like : α → α → Bool) (test : α → Bool) : List α → List α → Bool
  | _, [] => false
  | failed, x :: xs =>
    if failed.any fun y => like y x then anyUpTo like test failed xs
    else test x || anyUpTo like test (x :: failed) xs

/-- No element that passes is missed if elements like one that fails fail too. -/
theorem anyUpTo_eq_any {α : Type} {like : α → α → Bool} {test : α → Bool}
    (h : ∀ x y, like x y = true → test x = false → test y = false) (failed xs : List α)
    (hf : ∀ x ∈ failed, test x = false) : anyUpTo like test failed xs = xs.any test := by
  induction xs generalizing failed with
  | nil => rfl
  | cons x xs ih =>
    rw [anyUpTo, List.any_cons]
    split
    · rename_i hx
      obtain ⟨y, hy, hyx⟩ := List.any_eq_true.1 hx
      rw [ih failed hf, h y x hyx (hf y hy), Bool.false_or]
    · cases ht : test x with
      | true => rfl
      | false => rw [ih (x :: failed) (List.forall_mem_cons.2 ⟨ht, hf⟩)]

/-- Two shapes to be compared, with the states that lead to each state. -/
structure Comparison where
  left : Shape
  right : Shape
  leftSources : Array (List (Nat × Nat)) := left.sources
  rightSources : Array (List (Nat × Nat)) := right.sources

namespace Comparison

open Shape

/-- The colourings by numbers for what is told of each state, and how many
colours they use. -/
def colourings (left right : List (List Nat)) : Nat × Colouring × Colouring :=
  let colours := palette (left ++ right)
  let paint (views : List (List Nat)) : Colouring :=
    (views.map fun v => colours.getD v 0).toArray
  (colours.size, paint left, paint right)

/-- The colourings by what words lead to from each state. -/
def initial (C : Comparison) : Nat × Colouring × Colouring :=
  colourings ((List.range C.left.size).map C.left.outline)
    ((List.range C.right.size).map C.right.outline)

/-- The colourings after a round of refinement. -/
def round (C : Comparison) (κ μ : Colouring) : Nat × Colouring × Colouring :=
  colourings ((List.range C.left.size).map (C.left.view C.leftSources κ))
    ((List.range C.right.size).map (C.right.view C.rightSources μ))

/-- The colourings after so many rounds at most; the rounds end when one
uses no more colours than were used before. -/
def refine (C : Comparison) : Nat → Nat → Colouring → Colouring → Colouring × Colouring
  | 0, _, κ, μ => (κ, μ)
  | n + 1, count, κ, μ =>
    let (more, κ, μ) := C.round κ μ
    if more = count then (κ, μ) else C.refine n more κ μ

/-- The right shape compared with itself. -/
def ofRight (C : Comparison) : Comparison where
  left := C.right
  right := C.right
  leftSources := C.rightSources
  rightSources := C.rightSources

/-- A colour that no state has after a round. -/
def fresh (C : Comparison) : Nat := C.left.size + C.right.size

/-- Whether some numbering that keeps colours takes the left shape to the
right one, where so many states at most need a colour of their own. -/
def search : Nat → Comparison → Colouring → Colouring → Bool
  | fuel, C, κ, μ =>
    let (κ, μ) := C.refine (C.left.size + C.right.size) 0 κ μ
    let xs := ranked κ
    let ys := ranked μ
    if xs.map (κ.getD · 0) = ys.map (μ.getD · 0) then
      C.left.renamedBy C.right (pairing κ.size xs ys) (pairing μ.size ys xs) ||
      match fuel, shared? κ xs with
      | n + 1, some i =>
        let own (κ : Colouring) (i : Nat) : Colouring := κ.setIfInBounds i C.fresh
        anyUpTo (fun j k => search n C.ofRight (own μ j) (own μ k))
          (fun j => search n C (own κ i) (own μ j)) []
          (ys.filter fun j => decide (μ.getD j 0 = κ.getD i 0))
      | _, _ => false
    else false

/-- Whether some numbering takes the left shape to the right one. -/
def alike (C : Comparison) : Bool :=
  let (_, κ, μ) := C.initial
  search C.left.size C κ μ

end Comparison

end Automata
