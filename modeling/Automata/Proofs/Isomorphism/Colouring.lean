/-
Colourings: what a round of refinement does to the colours of two shapes.

A colouring is made from something that is told of each state, a list of
numbers, and tells two states apart exactly where the lists differ
(`Paints`). All that is asked of the numbers that stand for the lists is
that different lists get different ones, below the number of states
altogether; so nothing further on looks into the order in which they are
given out.

# Rounds

Of a round three things matter (`Recolours`). It only splits colours,
since its list begins with the colour so far. It keeps correspondence:
states that correspond under a renaming and have one colour get one
colour again. And its colours stay below `fresh`. Any number of rounds
does the same, whenever they end, if there is at least one.
-/
import Automata.Proofs.Isomorphism.Renaming

namespace Automata

open Shape

-- ============================================================ palettes

namespace Shape

variable {t : Std.TreeMap (List Nat) Nat (List.compareLex compareNumbers)}

/-- Numbers for lists: different ones for different lists, below their
number. -/
structure Numbers (t : Std.TreeMap (List Nat) Nat (List.compareLex compareNumbers)) : Prop where
  lt : ∀ {v : List Nat} {k : Nat}, t[v]? = some k → k < t.size
  injective : ∀ {v w : List Nat} {k : Nat}, t[v]? = some k → t[w]? = some k → v = w

theorem numbers_empty : Numbers ∅ where
  lt := by
    intro v k hk
    rw [Std.TreeMap.getElem?_emptyc] at hk
    cases hk
  injective := by
    intro v w k hk
    rw [Std.TreeMap.getElem?_emptyc] at hk
    cases hk

/-- A list without a number gets the next one. -/
theorem Numbers.insertIfNew (h : Numbers t) (v : List Nat) :
    Numbers (t.insertIfNew v t.size) := by
  have hlook : ∀ {w : List Nat} {k : Nat}, (t.insertIfNew v t.size)[w]? = some k →
      t[w]? = some k ∨ v = w ∧ ¬v ∈ t ∧ k = t.size := by
    intro w k hk
    rw [Std.TreeMap.getElem?_insertIfNew] at hk
    split at hk
    · rename_i hnew
      have hvw := Std.LawfulEqCmp.eq_of_compare hnew.1
      exact Or.inr ⟨hvw, hnew.2, (Option.some.inj hk).symm⟩
    · exact Or.inl hk
  refine ⟨fun {w k} hk => ?_, fun {w x k} hw hx => ?_⟩
  · rw [Std.TreeMap.size_insertIfNew]
    rcases hlook hk with hk | ⟨-, hnew, rfl⟩
    · have hlt := h.lt hk
      split
      · exact hlt
      · exact Nat.lt_succ_of_lt hlt
    · rw [if_neg hnew]
      exact Nat.lt_succ_self _
  · rcases hlook hw with hw | ⟨rfl, -, rfl⟩
    · rcases hlook hx with hx | ⟨rfl, -, rfl⟩
      · exact h.injective hw hx
      · exact absurd (h.lt hw) (Nat.lt_irrefl _)
    · rcases hlook hx with hx | ⟨rfl, -, -⟩
      · exact absurd (h.lt hx) (Nat.lt_irrefl _)
      · rfl

/-- Giving numbers to some more lists: each has one then, and the numbers
are no more than the lists. -/
theorem Numbers.foldl (h : Numbers t) (views : List (List Nat)) :
    Numbers (views.foldl (fun t v => t.insertIfNew v t.size) t) ∧
      (views.foldl (fun t v => t.insertIfNew v t.size) t).size ≤ t.size + views.length ∧
      ∀ v, v ∈ t ∨ v ∈ views → v ∈ views.foldl (fun t v => t.insertIfNew v t.size) t := by
  induction views generalizing t with
  | nil => exact ⟨h, Nat.le_refl _, fun v hv => hv.resolve_right List.not_mem_nil⟩
  | cons w views ih =>
      obtain ⟨hnumbers, hsize, hmem⟩ := ih (h.insertIfNew w)
      have hstep := Std.TreeMap.size_insertIfNew_le (t := t) (k := w) (v := t.size)
      rw [List.foldl_cons, List.length_cons]
      refine ⟨hnumbers, by omega, fun v hv => hmem v ?_⟩
      rw [Std.TreeMap.mem_insertIfNew, Std.LawfulEqCmp.compare_eq_iff_eq]
      rw [List.mem_cons] at hv
      rcases hv with hv | rfl | hv
      · exact Or.inl (Or.inr hv)
      · exact Or.inl (Or.inl rfl)
      · exact Or.inr hv

theorem getElem?_eq_some_getD {v : List Nat} (hv : v ∈ t) : t[v]? = some (t.getD v 0) := by
  obtain ⟨k, hk⟩ := Option.isSome_iff_exists.1 (Std.TreeMap.mem_iff_isSome_getElem?.1 hv)
  rw [Std.TreeMap.getD_eq_getD_getElem?, hk, Option.getD_some]

/-- In a palette each list has a number of its own. -/
theorem numbers_palette (views : List (List Nat)) :
    Numbers (palette views) ∧ (palette views).size ≤ views.length ∧
      ∀ v ∈ views, v ∈ palette views := by
  obtain ⟨hnumbers, hsize, hmem⟩ := numbers_empty.foldl views
  rw [Std.TreeMap.size_emptyc, Nat.zero_add] at hsize
  exact ⟨hnumbers, hsize, fun v hv => hmem v (Or.inr hv)⟩

end Shape

namespace Comparison

variable {C : Comparison} {κ μ κ' μ' κ'' μ'' : Colouring} {f g : Nat → List Nat} {m n : Nat}

-- ========================================================== colourings

/-- The colours of the states of two shapes tell apart just what is told
of them. -/
structure Paints (f g : Nat → List Nat) (m n : Nat) (κ μ : Colouring) : Prop where
  size_left : κ.size = m
  size_right : μ.size = n
  lt_left : ∀ i < m, κ.getD i 0 < m + n
  lt_right : ∀ j < n, μ.getD j 0 < m + n
  left : ∀ i < m, ∀ j < m, κ.getD i 0 = κ.getD j 0 → f i = f j
  across : ∀ i < m, ∀ j < n, μ.getD j 0 = κ.getD i 0 ↔ g j = f i

theorem getD_paint (colour : List Nat → Nat) (h : Nat → List Nat) {k i : Nat} (hi : i < k) :
    (((List.range k).map h).map colour).toArray.getD i 0 = colour (h i) := by
  rw [Array.getD_eq_getD_getElem?, List.getElem?_toArray, List.getElem?_map, List.getElem?_map,
    List.getElem?_range hi]
  rfl

theorem paints_colourings (f g : Nat → List Nat) (m n : Nat) :
    Paints f g m n (colourings ((List.range m).map f) ((List.range n).map g)).2.1
      (colourings ((List.range m).map f) ((List.range n).map g)).2.2 := by
  obtain ⟨hnumbers, hsize, hmem⟩ := numbers_palette ((List.range m).map f ++ (List.range n).map g)
  rw [List.length_append, List.length_map, List.length_map, List.length_range,
    List.length_range] at hsize
  show Paints f g m n
    (((List.range m).map f).map ((palette (_ ++ (List.range n).map g)).getD · 0)).toArray
    (((List.range n).map g).map ((palette ((List.range m).map f ++ _)).getD · 0)).toArray
  -- from here on the palette is some numbers for what is told of all states
  generalize palette ((List.range m).map f ++ (List.range n).map g) = t at hnumbers hsize hmem ⊢
  have hf : ∀ i < m, t[f i]? = some (t.getD (f i) 0) := fun i hi =>
    getElem?_eq_some_getD
      (hmem _ (List.mem_append_left _ (List.mem_map_of_mem (List.mem_range.2 hi))))
  have hg : ∀ j < n, t[g j]? = some (t.getD (g j) 0) := fun j hj =>
    getElem?_eq_some_getD
      (hmem _ (List.mem_append_right _ (List.mem_map_of_mem (List.mem_range.2 hj))))
  refine ⟨by simp, by simp, fun i hi => ?_, fun j hj => ?_, fun i hi j hj hij => ?_,
    fun i hi j hj => ?_⟩
  · rw [getD_paint _ f hi]
    exact Nat.lt_of_lt_of_le (hnumbers.lt (hf i hi)) hsize
  · rw [getD_paint _ g hj]
    exact Nat.lt_of_lt_of_le (hnumbers.lt (hg j hj)) hsize
  · rw [getD_paint _ f hi, getD_paint _ f hj] at hij
    exact hnumbers.injective (hf i hi) (hij ▸ hf j hj)
  · rw [getD_paint _ f hi, getD_paint _ g hj]
    refine ⟨fun hij => hnumbers.injective (hg j hj) (hij ▸ hf i hi), fun hij => ?_⟩
    rw [hij]

-- ============================================================== rounds

/-- The shapes fit, and the sources are theirs. -/
structure Fits (C : Comparison) : Prop where
  left : C.left.Fits
  right : C.right.Fits
  leftSources : C.leftSources = C.left.sources
  rightSources : C.rightSources = C.right.sources

/-- What rounds of refinement make of two colourings. -/
structure Recolours (C : Comparison) (κ μ κ' μ' : Colouring) : Prop where
  size_left : κ'.size = C.left.size
  size_right : μ'.size = C.right.size
  lt_left : ∀ i < C.left.size, κ'.getD i 0 < C.fresh
  lt_right : ∀ j < C.right.size, μ'.getD j 0 < C.fresh
  left : ∀ i < C.left.size, ∀ j < C.left.size, κ'.getD i 0 = κ'.getD j 0 → κ.getD i 0 = κ.getD j 0
  across : ∀ i < C.left.size, ∀ j < C.right.size, μ'.getD j 0 = κ'.getD i 0 →
    μ.getD j 0 = κ.getD i 0
  keeps : ∀ {π}, C.left.Renames C.right π → C.left.Keeps π κ μ → C.left.Keeps π κ' μ'

theorem Recolours.trans (h : C.Recolours κ μ κ' μ') (h' : C.Recolours κ' μ' κ'' μ'') :
    C.Recolours κ μ κ'' μ'' where
  size_left := h'.size_left
  size_right := h'.size_right
  lt_left := h'.lt_left
  lt_right := h'.lt_right
  left := fun i hi j hj hij => h.left i hi j hj (h'.left i hi j hj hij)
  across := fun i hi j hj hij => h.across i hi j hj (h'.across i hi j hj hij)
  keeps := fun hπ hκ => h'.keeps hπ (h.keeps hπ hκ)

/-- A renaming that keeps the colours after some rounds kept those before. -/
theorem Recolours.keeps_before (h : C.Recolours κ μ κ' μ') {π : Nat → Nat}
    (hπ : C.left.Renames C.right π) (hκ : C.left.Keeps π κ' μ') : C.left.Keeps π κ μ :=
  fun i hi => h.across i hi (π i) (hπ.lt hi) (hκ i hi)

/-- A view begins with the colour so far. -/
theorem colour_of_view_eq {S T : Shape} {into into' : Array (List (Nat × Nat))} {i j : Nat}
    (h : T.view into' μ j = S.view into κ i) : μ.getD j 0 = κ.getD i 0 :=
  (List.cons.inj h).1

theorem recolours_round (hC : C.Fits) (κ μ : Colouring) :
    C.Recolours κ μ (C.round κ μ).2.1 (C.round κ μ).2.2 := by
  have hpaints := paints_colourings (C.left.view C.leftSources κ) (C.right.view C.rightSources μ)
    C.left.size C.right.size
  refine ⟨hpaints.size_left, hpaints.size_right, hpaints.lt_left, hpaints.lt_right,
    fun i hi j hj hij => ?_, fun i hi j hj hij => ?_, fun {π} hπ hκ i hi => ?_⟩
  · exact colour_of_view_eq (hpaints.left i hi j hj hij)
  · exact colour_of_view_eq ((hpaints.across i hi j hj).1 hij)
  · refine (hpaints.across i hi (π i) (hπ.lt hi)).2 ?_
    rw [hC.leftSources, hC.rightSources]
    exact hπ.view hC.left hκ hi

/-- However many rounds there are, they do what one does. -/
theorem recolours_refine (hC : C.Fits) (n count : Nat) (κ μ : Colouring) :
    C.Recolours κ μ (C.refine (n + 1) count κ μ).1 (C.refine (n + 1) count κ μ).2 := by
  induction n generalizing count κ μ with
  | zero =>
      have hround := recolours_round hC κ μ
      unfold refine
      generalize C.round κ μ = r at hround ⊢
      obtain ⟨more, κ', μ'⟩ := r
      show C.Recolours κ μ (if more = count then (κ', μ') else (κ', μ')).1
        (if more = count then (κ', μ') else (κ', μ')).2
      rwa [ite_self]
  | succ n ih =>
      have hround := recolours_round hC κ μ
      unfold refine
      generalize C.round κ μ = r at hround ⊢
      obtain ⟨more, κ', μ'⟩ := r
      by_cases hcount : more = count
      · simp only [if_pos hcount]
        exact hround
      · simp only [if_neg hcount]
        exact hround.trans (ih more κ' μ')

end Comparison

end Automata
