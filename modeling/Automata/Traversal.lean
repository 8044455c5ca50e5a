/-
Traversal of a graph from some of its nodes.

`explore` takes up the first of the pending nodes. Unless it was seen
before it is visited, and its successors join the pending nodes: in
front of them, so that the course goes deep first, or behind them, so
that it goes wide first. The course ends early at a visited node that
passes a test. What comes out is that node, if there is one, and the set
of all visited nodes. Nodes are told apart by a comparison; of nodes
that it takes for one the first that is taken up is kept. The count
bounds the number of nodes taken up, so that the recursion is on a
number.

Main statements: every visited node is pending or a successor of a
visited one (`mem_explore`), the node at which the course ends passes
the test (`stop_of_explore`), and a course that may take up enough nodes
and does not end early visits all pending nodes and all successors of
visited ones (`explore_closed`).
-/
import Std.Data.TreeSet

namespace Automata

/-- Where successors join the pending nodes. -/
inductive Course where
  | deep
  | wide

/-- The pending nodes with others joined to them. -/
def Course.join {ι : Type} (c : Course) (fresh pending : List ι) : List ι :=
  match c with
  | deep => fresh ++ pending
  | wide => pending ++ fresh

@[simp] theorem Course.mem_join {ι : Type} {c : Course} {fresh pending : List ι} {x : ι} :
    x ∈ c.join fresh pending ↔ x ∈ fresh ∨ x ∈ pending := by
  cases c <;> simp [join, or_comm]

theorem Course.forall_mem_join {ι : Type} {c : Course} {fresh pending : List ι} {P : ι → Prop} :
    (∀ x ∈ c.join fresh pending, P x) ↔ (∀ x ∈ fresh, P x) ∧ ∀ x ∈ pending, P x := by
  simp only [mem_join, or_imp, forall_and]

@[simp] theorem Course.length_join {ι : Type} (c : Course) (fresh pending : List ι) :
    (c.join fresh pending).length = fresh.length + pending.length := by
  cases c <;> simp [join, Nat.add_comm]

variable {ι : Type} {cmp : ι → ι → Ordering}

/-- The first node that passes the test, and the visited nodes. -/
def explore (c : Course) (next : ι → List ι) (stop : ι → Bool) :
    Nat → Std.TreeSet ι cmp → List ι → Option ι × Std.TreeSet ι cmp
  | 0, seen, _ => (none, seen)
  | _ + 1, seen, [] => (none, seen)
  | n + 1, seen, x :: pending =>
    if x ∈ seen then explore c next stop n seen pending
    else if stop x then (some x, seen.insert x)
    else explore c next stop n (seen.insert x) (c.join (next x) pending)

/-- The nodes that are visited from some nodes on. -/
def visited (cmp : ι → ι → Ordering) (c : Course) (next : ι → List ι) (n : Nat) (pending : List ι) :
    Std.TreeSet ι cmp :=
  (explore c next (fun _ => false) n ∅ pending).2

variable {c : Course} {next : ι → List ι} {stop : ι → Bool}

/-- The node at which the course ends passes the test, and has every
property that the pending nodes have and that passes on to successors. -/
theorem stop_of_explore {P : ι → Prop} (step : ∀ x, P x → ∀ y ∈ next x, P y) {n : Nat}
    {seen : Std.TreeSet ι cmp} {pending : List ι} (h : ∀ x ∈ pending, P x) {x : ι}
    (hx : (explore c next stop n seen pending).1 = some x) : stop x = true ∧ P x := by
  induction n generalizing seen pending with
  | zero => simp [explore] at hx
  | succ n ih =>
    cases pending with
    | nil => simp [explore] at hx
    | cons y pending =>
      obtain ⟨hy, hp⟩ := List.forall_mem_cons.1 h
      rw [explore] at hx
      split at hx
      · exact ih hp hx
      · split at hx
        · rename_i hs
          cases hx
          exact ⟨hs, hy⟩
        · exact ih (Course.forall_mem_join.2 ⟨step y hy, hp⟩) hx

/-- The number of nodes that may still be taken up: the pending ones and
the successors of those that may still be visited. -/
def allowance (nodes : List ι) (seen : Std.TreeSet ι cmp) (width : Nat) (pending : List ι) : Nat :=
  pending.length + width * (nodes.filter fun k => decide (¬k ∈ seen)).length

theorem allowance_singleton_le (nodes : List ι) (width : Nat) (x : ι) :
    allowance nodes (∅ : Std.TreeSet ι cmp) width [x] ≤ 1 + width * nodes.length :=
  Nat.add_le_add_left (Nat.mul_le_mul_left _ (List.length_filter_le _ _)) 1

theorem allowance_cons (nodes : List ι) (seen : Std.TreeSet ι cmp) (width : Nat) (x : ι)
    (pending : List ι) :
    allowance nodes seen width (x :: pending) = allowance nodes seen width pending + 1 :=
  Nat.add_right_comm _ _ _

variable [Std.TransCmp cmp]

/-- The visited nodes were seen before or have every property that the
pending nodes have and that passes on to successors. -/
theorem mem_explore {P : ι → Prop} (step : ∀ x, P x → ∀ y ∈ next x, P y) {n : Nat}
    {seen : Std.TreeSet ι cmp} {pending : List ι} (h : ∀ x ∈ pending, P x) {y : ι}
    (hy : y ∈ (explore c next stop n seen pending).2) :
    y ∈ seen ∨ ∃ x, P x ∧ cmp x y = .eq := by
  induction n generalizing seen pending with
  | zero => exact Or.inl hy
  | succ n ih =>
    cases pending with
    | nil => exact Or.inl hy
    | cons x pending =>
      obtain ⟨hx, hp⟩ := List.forall_mem_cons.1 h
      have fresh : y ∈ seen.insert x → y ∈ seen ∨ ∃ x, P x ∧ cmp x y = .eq := fun hy => by
        rcases Std.TreeSet.mem_insert.1 hy with hy | hy
        · exact Or.inr ⟨x, hx, hy⟩
        · exact Or.inl hy
      rw [explore] at hy
      split at hy
      · exact ih hp hy
      · split at hy
        · exact fresh hy
        · rcases ih (Course.forall_mem_join.2 ⟨step x hx, hp⟩) hy with hy | hy
          · exact fresh hy
          · exact Or.inr hy

theorem mem_explore_of_mem {n : Nat} {seen : Std.TreeSet ι cmp} {pending : List ι} {y : ι}
    (hy : y ∈ seen) : y ∈ (explore c next stop n seen pending).2 := by
  induction n generalizing seen pending with
  | zero => exact hy
  | succ n ih =>
    cases pending with
    | nil => exact hy
    | cons x pending =>
      have hy' : y ∈ seen.insert x := Std.TreeSet.mem_insert.2 (Or.inr hy)
      rw [explore]
      split
      · exact ih hy
      · split
        · exact hy'
        · exact ih hy'

-- ===================================================== enough nodes

/-- A visited node is one fewer that is unseen, and no other becomes unseen. -/
theorem length_filter_unseen_lt {nodes : List ι} {seen : Std.TreeSet ι cmp} {x k : ι}
    (hk : k ∈ nodes) (hkx : cmp k x = .eq) (h : ¬x ∈ seen) :
    (nodes.filter fun j => decide (¬j ∈ seen.insert x)).length <
      (nodes.filter fun j => decide (¬j ∈ seen)).length := by
  have hfilter : (nodes.filter fun j => decide (¬j ∈ seen.insert x)) =
      (nodes.filter fun j => decide (¬j ∈ seen)).filter fun j => decide (¬j ∈ seen.insert x) := by
    rw [List.filter_filter]
    refine List.filter_congr fun j _ => ?_
    rw [Bool.eq_iff_iff, Bool.and_eq_true, decide_eq_true_iff, decide_eq_true_iff]
    exact ⟨fun hj => ⟨hj, fun hseen => hj (Std.TreeSet.mem_insert.2 (Or.inr hseen))⟩, And.left⟩
  have hunseen : ¬k ∈ seen := fun hk => h ((Std.TreeSet.mem_congr hkx).1 hk)
  have hseen : k ∈ seen.insert x :=
    Std.TreeSet.mem_insert.2 (Or.inl (Std.OrientedCmp.eq_comm.1 hkx))
  rw [hfilter, List.length_filter_lt_length_iff_exists]
  exact ⟨k, List.mem_filter.2 ⟨hk, decide_eq_true hunseen⟩, fun hnot => of_decide_eq_true hnot hseen⟩

/-- A visit takes more from the allowance than the successors that join. -/
theorem allowance_insert_lt {nodes : List ι} {seen : Std.TreeSet ι cmp} {x k : ι} {width : Nat}
    {fresh : List ι} (hk : k ∈ nodes) (hkx : cmp k x = .eq) (h : ¬x ∈ seen)
    (hfresh : fresh.length ≤ width) (pending : List ι) :
    allowance nodes (seen.insert x) width (c.join fresh pending) <
      allowance nodes seen width (x :: pending) := by
  have hunseen := Nat.mul_le_mul_left width (length_filter_unseen_lt hk hkx h)
  rw [Nat.mul_succ] at hunseen
  simp only [allowance, List.length_cons, Course.length_join]
  omega

/-- A course that may take up enough nodes and does not end early visits
all pending nodes, and all successors of the nodes that it visits; none
of these passes the test. -/
theorem explore_closed {P : ι → Prop} (step : ∀ x, P x → ∀ y ∈ next x, P y) {nodes : List ι}
    (bound : ∀ x, P x → ∃ k ∈ nodes, cmp k x = .eq) {width : Nat}
    (narrow : ∀ x, (next x).length ≤ width) {n : Nat} {seen : Std.TreeSet ι cmp}
    {pending : List ι} (h : ∀ x ∈ pending, P x)
    (enough : allowance nodes seen width pending ≤ n)
    (none : (explore c next stop n seen pending).1 = none) :
    (∀ x ∈ pending, x ∈ (explore c next stop n seen pending).2) ∧
      ∀ y ∈ (explore c next stop n seen pending).2, y ∈ seen ∨
        ∃ x, P x ∧ cmp x y = .eq ∧ stop x = false ∧
          ∀ z ∈ next x, z ∈ (explore c next stop n seen pending).2 := by
  induction n generalizing seen pending with
  | zero =>
    have : pending = [] := by
      rw [← List.length_eq_zero_iff]
      exact Nat.eq_zero_of_le_zero (Nat.le_trans (Nat.le_add_right _ _) enough)
    subst this
    exact ⟨by simp, fun y hy => Or.inl hy⟩
  | succ n ih =>
    cases pending with
    | nil => exact ⟨by simp, fun y hy => Or.inl hy⟩
    | cons x pending =>
      obtain ⟨hx, hp⟩ := List.forall_mem_cons.1 h
      rw [explore] at none ⊢
      split at none
      · rename_i hs
        rw [if_pos hs]
        rw [allowance_cons] at enough
        obtain ⟨h1, h2⟩ := ih hp (Nat.le_of_succ_le_succ enough) none
        exact ⟨List.forall_mem_cons.2 ⟨mem_explore_of_mem hs, h1⟩, h2⟩
      · rename_i hs
        rw [if_neg hs]
        split at none
        · cases none
        · rename_i hstop
          rw [if_neg hstop]
          obtain ⟨k, hk, hkx⟩ := bound x hx
          have henough : allowance nodes (seen.insert x) width (c.join (next x) pending) ≤ n :=
            Nat.le_of_lt_succ
              (Nat.lt_of_lt_of_le (allowance_insert_lt hk hkx hs (narrow x) pending) enough)
          obtain ⟨h1, h2⟩ := ih (Course.forall_mem_join.2 ⟨step x hx, hp⟩) henough none
          obtain ⟨hnext, hpending⟩ := Course.forall_mem_join.1 h1
          have hxm : x ∈ seen.insert x :=
            Std.TreeSet.mem_insert.2 (Or.inl Std.ReflCmp.compare_self)
          refine ⟨List.forall_mem_cons.2 ⟨mem_explore_of_mem hxm, hpending⟩, fun y hy => ?_⟩
          rcases h2 y hy with hy | hy
          · rcases Std.TreeSet.mem_insert.1 hy with hy | hy
            · exact Or.inr ⟨x, hx, hy, by simpa using hstop, hnext⟩
            · exact Or.inl hy
          · exact Or.inr hy

end Automata
