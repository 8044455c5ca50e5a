/-
Renamings of shapes: numberings that take one shape to another, and what
the comparison reads off a state that they do not change.

A renaming is a function on all numbers of which only the values at the
states count. It is one to one, and the shapes are of one size, so it
meets every state of the second shape (`Renames.perm_range`); that is
what gives it an inverse and lets a sum over the one shape be taken over
the other.

# What is told of a state

Three things are: its mark, the outline of what words lead to from it,
and its view in a colouring. For the outline the two walks go in step:
the states met are numbered alike, since numbers are given in the order
of meeting. For the view, the states that lead to a state are collected
edge by edge, and the edges of the second shape are those of the first,
renamed and in another order (`Renames.perm_edges`); so the colours that
they bring are the same once put in order.
-/
import Mathlib.Data.List.Nodup
import Mathlib.Data.List.Perm.Subperm
import Automata.Automaton.Shape

namespace Automata.Shape

variable {S T U : Shape} {π ρ : Nat → Nat}

-- ========================================================== renamings

/-- The start and all that letters lead to are states of the shape. -/
structure Fits (S : Shape) : Prop where
  start_lt : S.start < S.size
  targets_lt : ∀ {i j}, j ∈ S.targets i → j < S.size

/-- The numbering takes the one shape to the other. -/
structure Renames (S T : Shape) (π : Nat → Nat) : Prop where
  size : S.size = T.size
  lt : ∀ {i}, i < S.size → π i < T.size
  injective : ∀ {i j}, i < S.size → j < S.size → π i = π j → i = j
  start : π S.start = T.start
  accepting : ∀ {i}, i < S.size → S.accepting[i]? = T.accepting[π i]?
  targets : ∀ {i}, i < S.size → T.targets (π i) = (S.targets i).map π

namespace Renames

/-- A renaming meets each state of the second shape once. -/
theorem perm_range (h : S.Renames T π) :
    ((List.range S.size).map π).Perm (List.range T.size) := by
  have hnodup : ((List.range S.size).map π).Nodup := by
    refine List.Nodup.map_on ?_ List.nodup_range
    intro i hi j hj hij
    exact h.injective (List.mem_range.1 hi) (List.mem_range.1 hj) hij
  have hsubset : (List.range S.size).map π ⊆ List.range T.size := by
    intro j hj
    obtain ⟨i, hi, rfl⟩ := List.mem_map.1 hj
    exact List.mem_range.2 (h.lt (List.mem_range.1 hi))
  refine (List.subperm_of_subset hnodup hsubset).perm_of_length_le ?_
  rw [List.length_map, List.length_range, List.length_range]
  exact Nat.le_of_eq h.size.symm

theorem exists_eq (h : S.Renames T π) {j : Nat} (hj : j < T.size) : ∃ i < S.size, π i = j := by
  have hmem := h.perm_range.mem_iff.2 (List.mem_range.2 hj)
  obtain ⟨i, hi, hij⟩ := List.mem_map.1 hmem
  exact ⟨i, List.mem_range.1 hi, hij⟩

/-- A renaming is undone by one in the other direction. -/
theorem exists_inverse (h : S.Renames T π) (hS : S.Fits) :
    ∃ ρ, T.Renames S ρ ∧ ∀ {i}, i < S.size → ρ (π i) = i := by
  have hback : ∀ j, j < T.size → ∃ i, i < S.size ∧ π i = j := fun _ hj => h.exists_eq hj
  choose! ρ hρ using hback
  have hundo : ∀ {i}, i < S.size → ρ (π i) = i := by
    intro i hi
    obtain ⟨hlt, heq⟩ := hρ (π i) (h.lt hi)
    exact h.injective hlt hi heq
  refine ⟨ρ, ⟨h.size.symm, fun hj => (hρ _ hj).1, ?_, ?_, ?_, ?_⟩, hundo⟩
  · intro j k hj hk hjk
    rw [← (hρ j hj).2, ← (hρ k hk).2, hjk]
  · rw [← h.start, hundo hS.start_lt]
  · intro j hj
    obtain ⟨hlt, heq⟩ := hρ j hj
    rw [h.accepting hlt, heq]
  · intro j hj
    obtain ⟨hlt, heq⟩ := hρ j hj
    have htargets := h.targets hlt
    rw [heq] at htargets
    calc S.targets (ρ j)
        = (S.targets (ρ j)).map id := (List.map_id _).symm
      _ = (S.targets (ρ j)).map (ρ ∘ π) :=
          List.map_congr_left fun i hi => (hundo (hS.targets_lt hi)).symm
      _ = (T.targets j).map ρ := by rw [htargets, List.map_map]

theorem comp (h : S.Renames T π) (h' : T.Renames U ρ) : S.Renames U (ρ ∘ π) where
  size := h.size.trans h'.size
  lt := fun hi => h'.lt (h.lt hi)
  injective := fun hi hj hij => h.injective hi hj (h'.injective (h.lt hi) (h.lt hj) hij)
  start := by
    show ρ (π S.start) = U.start
    rw [h.start, h'.start]
  accepting := fun hi => (h.accepting hi).trans (h'.accepting (h.lt hi))
  targets := by
    intro i hi
    show U.targets (ρ (π i)) = _
    rw [h'.targets (h.lt hi), h.targets hi, List.map_map]

end Renames

/-- A numbering that passes the check takes the one shape to the other. -/
theorem renames_of_renamedBy {there back : Array Nat} (h : S.renamedBy T there back = true) :
    S.Renames T (there.getD · 0) := by
  unfold renamedBy at h
  simp only [Bool.and_eq_true, beq_iff_eq, List.all_eq_true, List.mem_range, decide_eq_true_eq] at h
  obtain ⟨⟨hsize, hstart⟩, hall⟩ := h
  refine ⟨hsize, fun hi => (hall _ hi).1.1.1, ?_, hstart, fun hi => (hall _ hi).1.2,
    fun hi => (hall _ hi).2.symm⟩
  intro i j hi hj hij
  have hi' := (hall i hi).1.1.2
  have hj' := (hall j hj).1.1.2
  rw [← hi', ← hj']
  exact congrArg (back.getD · 0) hij

/-- Numberings that agree with a renaming and its inverse pass the check. -/
theorem Renames.renamedBy (h : S.Renames T π) (hS : S.Fits) {there back : Array Nat}
    (hthere : ∀ i < S.size, there.getD i 0 = π i)
    (hback : ∀ i < S.size, back.getD (π i) 0 = i) : S.renamedBy T there back = true := by
  unfold Shape.renamedBy
  simp only [Bool.and_eq_true, beq_iff_eq, List.all_eq_true, List.mem_range, decide_eq_true_eq]
  refine ⟨⟨h.size, (hthere _ hS.start_lt).trans h.start⟩, fun i hi => ?_⟩
  rw [hthere i hi, hback i hi, h.targets hi]
  refine ⟨⟨⟨h.lt hi, rfl⟩, h.accepting hi⟩, ?_⟩
  exact List.map_congr_left fun j hj => hthere j (hS.targets_lt hj)

-- ===================================================== marks and walks

theorem Renames.mark (h : S.Renames T π) (hS : S.Fits) {i : Nat} (hi : i < S.size) :
    T.mark (π i) = S.mark i := by
  have hstart : π i = T.start ↔ i = S.start := by
    rw [← h.start]
    exact ⟨h.injective hi hS.start_lt, congrArg π⟩
  have haccepting : T.accepting.getD (π i) false = S.accepting.getD i false := by
    rw [Array.getD_eq_getD_getElem?, Array.getD_eq_getD_getElem?, h.accepting hi]
  unfold Shape.mark
  rw [haccepting]
  simp only [hstart]

/-- Two walks from states that correspond meet the same, as long as they
have met states that correspond. -/
theorem Renames.walk (h : S.Renames T π) (hS : S.Fits) {n : Nat}
    {met met' : Std.TreeMap Nat Nat compareNumbers} {pending : List Nat}
    (hsize : met'.size = met.size) (hmet : ∀ i < S.size, met'[π i]? = met[i]?)
    (hpending : ∀ i ∈ pending, i < S.size) :
    T.walk n met' (pending.map π) = S.walk n met pending := by
  induction n generalizing met met' pending with
  | zero => rfl
  | succ n ih =>
      cases pending with
      | nil => rfl
      | cons i pending =>
          obtain ⟨hi, hrest⟩ := List.forall_mem_cons.1 hpending
          rw [List.map_cons]
          unfold Shape.walk
          rw [hmet i hi]
          cases hk : met[i]? with
          | some k =>
              show _ :: _ = _ :: _
              rw [ih hsize hmet hrest]
          | none =>
              -- a state met for the first time: both walks give it one number
              have hnew : met.contains i = false := by
                rw [Std.TreeMap.contains_eq_isSome_getElem?, hk, Option.isSome_none]
              have hnew' : met'.contains (π i) = false := by
                rw [Std.TreeMap.contains_eq_isSome_getElem?, hmet i hi, hk, Option.isSome_none]
              show _ :: _ = _ :: _
              rw [h.mark hS hi, h.targets hi, ← List.map_append]
              refine congrArg _ (ih ?_ ?_ ?_)
              · rw [Std.TreeMap.size_insert, Std.TreeMap.size_insert]
                simp only [hnew, hnew', hsize]
              · intro j hj
                rw [Std.TreeMap.getElem?_insert, Std.TreeMap.getElem?_insert, hmet j hj, hsize]
                refine if_congr ?_ rfl rfl
                rw [Std.LawfulEqCmp.compare_eq_iff_eq, Std.LawfulEqCmp.compare_eq_iff_eq]
                exact ⟨h.injective hi hj, congrArg π⟩
              · intro j hj
                rcases List.mem_append.1 hj with hj | hj
                · exact hS.targets_lt hj
                · exact hrest j hj

/-- A renaming does not change the outline of a state. -/
theorem Renames.outline (h : S.Renames T π) (hS : S.Fits) {i : Nat} (hi : i < S.size) :
    T.outline (π i) = S.outline i := by
  unfold Shape.outline
  rw [h.targets hi, List.length_map, ← h.size]
  have hpending : ∀ j ∈ [i], j < S.size := by
    intro j hj
    rwa [List.mem_singleton.1 hj]
  exact h.walk hS rfl (fun j _ => rfl) hpending

-- ============================================================ sources

/-- The edges of the shape: each state with what one letter leads to
it, the letter and the state. -/
def edges (S : Shape) : List (Nat × Nat × Nat) :=
  S.moves.toList.zipIdx.flatMap fun (row, i) => row.zipIdx.map fun (j, c) => (j, c, i)

/-- Collecting what belongs to each place: to the place come, last first,
what belongs to it. -/
theorem getElem?_foldl_modify {α : Type} (es : List (Nat × α)) (into : Array (List α)) (j : Nat) :
    (es.foldl (fun into e => into.modify e.1 (e.2 :: ·)) into)[j]? =
      into[j]?.map fun xs => ((es.filter (·.1 == j)).map Prod.snd).reverse ++ xs := by
  induction es generalizing into with
  | nil =>
      show into[j]? = into[j]?.map fun xs => xs
      rw [Option.map_id']
  | cons e es ih =>
      rw [List.foldl_cons, ih, Array.getElem?_modify]
      by_cases he : e.1 = j
      · have hkept : (e :: es).filter (·.1 == j) = e :: es.filter (·.1 == j) :=
          List.filter_cons_of_pos (beq_iff_eq.2 he)
        rw [if_pos he, Option.map_map, hkept, List.map_cons, List.reverse_cons]
        refine congrArg (Option.map · into[j]?) (funext fun xs => ?_)
        exact List.append_cons _ _ _
      · rw [if_neg he, List.filter_cons_of_neg (by simpa using he)]

/-- The sources of a state are the edges that lead to it, last first. -/
theorem getD_sources (S : Shape) {j : Nat} (hj : j < S.size) :
    S.sources.getD j [] = ((S.edges.filter (·.1 == j)).map Prod.snd).reverse := by
  have hfold : S.sources = S.edges.foldl (fun into e => into.modify e.1 (e.2 :: ·))
      (Array.replicate S.size []) := by
    unfold sources edges
    rw [List.foldl_flatMap]
    simp only [List.foldl_map]
  rw [hfold, Array.getD_eq_getD_getElem?, getElem?_foldl_modify, Array.getElem?_replicate,
    if_pos hj]
  show _ ++ [] = _
  rw [List.append_nil]

/-- The edges, state by state. -/
theorem edges_eq (S : Shape) :
    S.edges = (List.range S.size).flatMap fun i =>
      (S.targets i).zipIdx.map fun (j, c) => (j, c, i) := by
  have hrows : S.moves.toList.zipIdx = (List.range S.size).map fun i => (S.targets i, i) := by
    refine List.ext_getElem? fun i => ?_
    rw [List.getElem?_zipIdx, Array.getElem?_toList, List.getElem?_map, Nat.zero_add]
    by_cases hi : i < S.size
    · have htargets : S.moves[i]? = some (S.targets i) := by
        unfold targets
        rw [Array.getElem?_eq_getElem hi]
        rfl
      rw [htargets, List.getElem?_range hi]
      rfl
    · have hout : S.size ≤ i := Nat.le_of_not_lt hi
      have hnone : (List.range S.size)[i]? = none := by
        rwa [List.getElem?_eq_none_iff, List.length_range]
      rw [Array.getElem?_eq_none hout, hnone]
      rfl
  unfold edges
  rw [hrows, List.flatMap_map]

/-- The edges of the second shape are those of the first, renamed. -/
theorem Renames.perm_edges (h : S.Renames T π) :
    T.edges.Perm (S.edges.map fun (j, c, i) => (π j, c, π i)) := by
  have hrow : ∀ i ∈ List.range S.size, (T.targets (π i)).zipIdx.map (fun (j, c) => (j, c, π i))
      = ((S.targets i).zipIdx.map fun (j, c) => (j, c, i)).map fun (j, c, i) => (π j, c, π i) := by
    intro i hi
    rw [h.targets (List.mem_range.1 hi), List.zipIdx_map, List.map_map, List.map_map]
    rfl
  rw [edges_eq T, edges_eq S, List.map_flatMap]
  refine (h.perm_range.symm.flatMap_right _).trans (List.Perm.of_eq ?_)
  rw [List.flatMap_map]
  exact List.flatMap_congr hrow

theorem Fits.lt_of_mem_edges (hS : S.Fits) {e : Nat × Nat × Nat} (he : e ∈ S.edges) :
    e.1 < S.size ∧ e.2.2 < S.size := by
  rw [edges_eq, List.mem_flatMap] at he
  obtain ⟨i, hi, he⟩ := he
  obtain ⟨⟨j, c⟩, hjc, rfl⟩ := List.mem_map.1 he
  exact ⟨hS.targets_lt (List.fst_mem_of_mem_zipIdx hjc), List.mem_range.1 hi⟩

/-- The states that lead to a state are renamed with it. -/
theorem Renames.perm_sources (h : S.Renames T π) (hS : S.Fits) {j : Nat} (hj : j < S.size) :
    (T.sources.getD (π j) []).Perm ((S.sources.getD j []).map fun (c, i) => (c, π i)) := by
  rw [getD_sources T (h.lt hj), getD_sources S hj, List.map_reverse]
  refine (List.reverse_perm _).trans (List.Perm.trans ?_ (List.reverse_perm _).symm)
  refine ((h.perm_edges.filter _).map _).trans (List.Perm.of_eq ?_)
  have hsame : S.edges.filter ((·.1 == π j) ∘ fun (j, c, i) => (π j, c, π i))
      = S.edges.filter (·.1 == j) := by
    refine List.filter_congr fun e he => ?_
    show (π e.1 == π j) = (e.1 == j)
    rw [Bool.eq_iff_iff, beq_iff_eq, beq_iff_eq]
    exact ⟨h.injective (hS.lt_of_mem_edges he).1 hj, congrArg π⟩
  rw [List.filter_map, hsame, List.map_map, List.map_map]
  rfl

theorem Fits.lt_of_mem_sources (hS : S.Fits) {i j c : Nat} (hj : j < S.size)
    (hi : (c, i) ∈ S.sources.getD j []) : i < S.size := by
  rw [getD_sources S hj, List.mem_reverse] at hi
  obtain ⟨e, he, heq⟩ := List.mem_map.1 hi
  have hlt := (hS.lt_of_mem_edges (List.mem_of_mem_filter he)).2
  rwa [heq] at hlt

-- =============================================================== views

/-- Once in order, a list of numbers does not depend on its order. -/
theorem mergeSort_eq_of_perm {xs ys : List Nat} (h : xs.Perm ys) :
    xs.mergeSort (fun m n => decide (m ≤ n)) = ys.mergeSort fun m n => decide (m ≤ n) := by
  have hsorted : ∀ zs : List Nat, (zs.mergeSort fun m n => decide (m ≤ n)).Pairwise
      fun m n => decide (m ≤ n) = true :=
    List.pairwise_mergeSort (fun a b c => by simpa using Nat.le_trans) fun a b => by
      simpa using Nat.le_total a b
  refine List.Perm.eq_of_pairwise ?_ (hsorted xs) (hsorted ys) ?_
  · intro m n _ _ hmn hnm
    exact Nat.le_antisymm (of_decide_eq_true hmn) (of_decide_eq_true hnm)
  · exact ((List.mergeSort_perm xs _).trans h).trans (List.mergeSort_perm ys _).symm

/-- States that correspond have one colour. -/
def Keeps (S : Shape) (π : Nat → Nat) (κ μ : Colouring) : Prop :=
  ∀ i < S.size, μ.getD (π i) 0 = κ.getD i 0

/-- A renaming that keeps colours does not change the view of a state. -/
theorem Renames.view (h : S.Renames T π) (hS : S.Fits) {κ μ : Colouring} (hκ : S.Keeps π κ μ)
    {i : Nat} (hi : i < S.size) : T.view T.sources μ (π i) = S.view S.sources κ i := by
  have htargets : (T.targets (π i)).map (μ.getD · 0) = (S.targets i).map (κ.getD · 0) := by
    rw [h.targets hi, List.map_map]
    exact List.map_congr_left fun j hj => hκ j (hS.targets_lt hj)
  have hsources : ((T.sources.getD (π i) []).map fun (c, j) =>
        (T.targets (π i)).length * μ.getD j 0 + c).Perm
      ((S.sources.getD i []).map fun (c, j) => (S.targets i).length * κ.getD j 0 + c) := by
    refine ((h.perm_sources hS hi).map _).trans (List.Perm.of_eq ?_)
    rw [List.map_map, h.targets hi, List.length_map]
    refine List.map_congr_left fun e he => ?_
    show _ * μ.getD (π e.2) 0 + e.1 = _
    rw [hκ e.2 (hS.lt_of_mem_sources hi he)]
  unfold Shape.view
  show μ.getD (π i) 0 :: (T.targets (π i)).map (μ.getD · 0) ++ List.mergeSort _ _
    = κ.getD i 0 :: (S.targets i).map (κ.getD · 0) ++ List.mergeSort _ _
  rw [htargets, hκ i hi]
  exact congrArg _ (mergeSort_eq_of_perm hsources)

end Automata.Shape
