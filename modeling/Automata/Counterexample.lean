/-
Counterexamples: words that exactly one of two automata accepts.

The automata are made into machines, and these are searched for a word
that leads them to different labels. Any search can be put in; the one
here is a traversal, deep first, of the pairs of states that the same word
leads to, each pair with the first word that led there. Of the letters
after a word the largest is tried first. The search ends with the first
pair whose labels differ, and its word is the counterexample.
-/
import Automata.Machine

namespace Automata

/-- A pair of states with a word that leads to both, held from its last
letter to its first. -/
structure Probe where
  left : Symbol
  right : Symbol
  back : List Symbol

namespace Probe

/-- The word that leads to both states. -/
def word (p : Probe) : List Symbol := p.back.reverse

/-- How the pairs of two probes stand to each other. -/
def order (p q : Probe) : Ordering :=
  compareLex (comparing left Symbol.order) (comparing right Symbol.order) p q

/-- Probes of the same pair are not told apart. -/
theorem order_eq_iff {p q : Probe} : p.order q = .eq ↔ p.left ≈ q.left ∧ p.right ≈ q.right := by
  rw [order, compareLex_eq_eq, comparing, comparing, Symbol.order_eq_iff, Symbol.order_eq_iff]

instance : Std.TransCmp order := inferInstanceAs (Std.TransCmp (compareLex _ _))

end Probe

namespace Machine

variable (m n : Machine)

/-- The probes one letter on, the largest letter first. -/
def probesAfter (p : Probe) : List Probe :=
  m.inputs.toList.reverse.filterMap fun c => do
    let s ← m.move? p.left c
    let t ← n.move? p.right c
    return ⟨s, t, c :: p.back⟩

/-- Whether the labels of the two states of a probe differ. -/
def differs (p : Probe) : Bool := m.marks p.left != n.marks p.right

/-- The first probe whose states differ, and the probes made on the way. -/
def search : Option Probe × Std.TreeSet Probe Probe.order :=
  explore .deep (probesAfter m n) (differs m n)
    (1 + m.inputs.size * (m.targets.length * n.targets.length)) ∅ [⟨m.start, n.start, []⟩]

/-- A word that leads the machines to different labels, if there is one.
They need to take the same letters. -/
def findDifference : Except Fault (Option (List Symbol)) :=
  if m.inputs ≈ n.inputs then .ok ((search m n).1.map Probe.word)
  else .error .differentAlphabets

end Machine

namespace Automaton

/-- What a search for a difference of machines finds for the machines of two
automata. -/
def findCounterexampleBy (search : Machine → Machine → Except Fault (Option (List Symbol)))
    (A B : Automaton) : Except Fault (Option (List Symbol)) :=
  search A.toMachine B.toMachine

/-- A word that exactly one of the automata accepts, if there is one.
They need a common alphabet. -/
def findCounterexample : Automaton → Automaton → Except Fault (Option (List Symbol)) :=
  findCounterexampleBy Machine.findDifference

end Automaton

end Automata
