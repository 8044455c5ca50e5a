/-
The search finds a renaming exactly when there is one.

Both directions are inductions on the number of states that may still
get a colour of their own, and both speak of renamings that keep the
colours, since the colours are all that a branch of the search knows of
the choices made before it.

# A search that succeeds

At a leaf the numbering found passes the check, and pairs states of one
colour. Further up, a renaming that keeps the colours with `fresh` given
to two states takes the one to the other and keeps the colours without
(`Keeps.of_own`).

# A renaming that is there to be found

A renaming that keeps colours keeps them through the rounds, so the
colours in order are the same on both sides. If no colour is shared the
pairing is that renaming, and it passes the check. If state `i` shares
its colour, the branch in which the image of `i` is tried succeeds,
since the states that share a colour have become fewer (`loose`). The
branch may be passed over, for an image that is like it was tried in
vain; but by the first direction being like is witnessed by a renaming,
and composed with this one the renaming sought would have been found
there.
-/
import Mathlib.Data.Finset.Card
import Automata.Proofs.Isomorphism.Colouring

namespace Automata

namespace Shape

variable {S T U : Shape} {π ρ : Nat → Nat} {κ μ ν : Colouring}

-- ============================================================= pairings

theorem perm_ranked (κ : Colouring) : (ranked κ).Perm (List.range κ.size) :=
  List.mergeSort_perm _ _

theorem mem_ranked {i : Nat} : i ∈ ranked κ ↔ i < κ.size :=
  (perm_ranked κ).mem_iff.trans List.mem_range

theorem nodup_ranked (κ : Colouring) : (ranked κ).Nodup :=
  (perm_ranked κ).nodup_iff.2 List.nodup_range

theorem pairwise_ranked (κ : Colouring) :
    (ranked κ).Pairwise fun i j => κ.getD i 0 ≤ κ.getD j 0 := by
  have hsorted : (ranked κ).Pairwise fun i j => decide (κ.getD i 0 ≤ κ.getD j 0) = true :=
    List.pairwise_mergeSort (fun a b c => by simpa using Nat.le_trans)
      (fun a b => by simpa using Nat.le_total _ _) (List.range κ.size)
  exact hsorted.imp fun h => of_decide_eq_true h

theorem mem_zip_of_map_eq {f g : Nat → Nat} {xs ys : List Nat} (h : xs.map f = ys.map g) {x : Nat}
    (hx : x ∈ xs) : ∃ y, (x, y) ∈ xs.zip ys ∧ y ∈ ys ∧ g y = f x := by
  induction xs generalizing ys with
  | nil => cases hx
  | cons x' xs ih =>
      cases ys with
      | nil => cases h
      | cons y ys =>
          obtain ⟨hhead, htail⟩ := List.cons.inj h
          rcases List.mem_cons.1 hx with rfl | hx
          · exact ⟨y, List.mem_cons_self, List.mem_cons_self, hhead.symm⟩
          · obtain ⟨z, hz, hzs, hcolour⟩ := ih htail hx
            exact ⟨z, List.mem_cons_of_mem _ hz, List.mem_cons_of_mem _ hzs, hcolour⟩

theorem getD_foldl_of_not_mem {es : List (Nat × Nat)} {x : Nat} (hx : ¬x ∈ es.map Prod.fst)
    (t : Array Nat) :
    (es.foldl (fun t (i, j) => t.setIfInBounds i j) t).getD x 0 = t.getD x 0 := by
  induction es generalizing t with
  | nil => rfl
  | cons e es ih =>
      rw [List.map_cons, List.mem_cons, not_or] at hx
      rw [List.foldl_cons, ih hx.2, Array.getD_eq_getD_getElem?, Array.getD_eq_getD_getElem?,
        Array.getElem?_setIfInBounds_ne (Ne.symm hx.1)]

/-- Entries at different places stay as they were made. -/
theorem getD_foldl_of_mem {es : List (Nat × Nat)} (hes : (es.map Prod.fst).Nodup) {x y : Nat}
    (hxy : (x, y) ∈ es) {t : Array Nat} (hx : x < t.size) :
    (es.foldl (fun t (i, j) => t.setIfInBounds i j) t).getD x 0 = y := by
  induction es generalizing t with
  | nil => cases hxy
  | cons e es ih =>
      obtain ⟨hnot, hnodup⟩ := List.nodup_cons.1 hes
      rw [List.foldl_cons]
      rcases List.mem_cons.1 hxy with rfl | hxy
      · rw [getD_foldl_of_not_mem hnot, Array.getD_eq_getD_getElem?,
          Array.getElem?_setIfInBounds_self_of_lt hx, Option.getD_some]
      · exact ih hnodup hxy (by rwa [Array.size_setIfInBounds])

/-- The pairing of two colourings that are the same in order takes each
state to one of its colour. -/
theorem pairing_ranked
    (h : (ranked κ).map (κ.getD · 0) = (ranked μ).map (μ.getD · 0)) {i : Nat} (hi : i < κ.size) :
    (pairing κ.size (ranked κ) (ranked μ)).getD i 0 < μ.size ∧
      μ.getD ((pairing κ.size (ranked κ) (ranked μ)).getD i 0) 0 = κ.getD i 0 := by
  obtain ⟨j, hij, hj, hcolour⟩ := mem_zip_of_map_eq h (mem_ranked.2 hi)
  have hlength : (ranked κ).length = (ranked μ).length := by
    have hmap := congrArg List.length h
    rwa [List.length_map, List.length_map] at hmap
  have hplaces : (((ranked κ).zip (ranked μ)).map Prod.fst).Nodup := by
    rw [List.map_fst_zip (Nat.le_of_eq hlength)]
    exact nodup_ranked κ
  unfold pairing
  rw [getD_foldl_of_mem hplaces hij (by rwa [Array.size_replicate])]
  exact ⟨mem_ranked.1 hj, hcolour⟩

-- ======================================================= shared colours

/-- The states, of so many, that share their colour with another. -/
def loose (n : Nat) (κ : Colouring) : Finset Nat :=
  (Finset.range n).filter fun i => ∃ j < n, j ≠ i ∧ κ.getD j 0 = κ.getD i 0

theorem mem_loose {n i : Nat} :
    i ∈ loose n κ ↔ i < n ∧ ∃ j < n, j ≠ i ∧ κ.getD j 0 = κ.getD i 0 := by
  unfold loose
  rw [Finset.mem_filter, Finset.mem_range]

theorem mem_of_shared? {xs : List Nat} (hxs : xs.Nodup) {i : Nat} (h : shared? κ xs = some i) :
    i ∈ xs ∧ ∃ j ∈ xs, j ≠ i ∧ κ.getD j 0 = κ.getD i 0 := by
  induction xs with
  | nil => cases h
  | cons x xs ih =>
      cases xs with
      | nil => cases h
      | cons y xs =>
          obtain ⟨hnot, hnodup⟩ := List.nodup_cons.1 hxs
          unfold shared? at h
          split at h
          · rename_i hcolour
            cases h
            refine ⟨List.mem_cons_self, y, List.mem_cons_of_mem _ List.mem_cons_self, ?_,
              hcolour.symm⟩
            intro hxy
            exact hnot (hxy ▸ List.mem_cons_self)
          · obtain ⟨hi, j, hj, hrest⟩ := ih hnodup h
            exact ⟨List.mem_cons_of_mem _ hi, j, List.mem_cons_of_mem _ hj, hrest⟩

/-- In order of their colours, states of which no two neighbours share a
colour have different colours. -/
theorem pairwise_lt_of_shared? {xs : List Nat}
    (hxs : xs.Pairwise fun i j => κ.getD i 0 ≤ κ.getD j 0) (h : shared? κ xs = none) :
    xs.Pairwise fun i j => κ.getD i 0 < κ.getD j 0 := by
  induction xs with
  | nil => exact .nil
  | cons x xs ih =>
      cases xs with
      | nil => exact List.pairwise_singleton _ _
      | cons y xs =>
          obtain ⟨hx, hrest⟩ := List.pairwise_cons.1 hxs
          unfold shared? at h
          split at h
          · cases h
          · rename_i hne
            have htail := ih hrest h
            have hxy : κ.getD x 0 < κ.getD y 0 :=
              Nat.lt_of_le_of_ne (hx y List.mem_cons_self) hne
            refine List.pairwise_cons.2 ⟨fun z hz => ?_, htail⟩
            rcases List.mem_cons.1 hz with rfl | hz
            · exact hxy
            · exact Nat.lt_trans hxy (List.rel_of_pairwise_cons htail hz)

theorem mem_loose_of_shared? {i : Nat} (h : shared? κ (ranked κ) = some i) :
    i ∈ loose κ.size κ := by
  obtain ⟨hi, j, hj, hcolour⟩ := mem_of_shared? (nodup_ranked κ) h
  exact mem_loose.2 ⟨mem_ranked.1 hi, j, mem_ranked.1 hj, hcolour⟩

theorem eq_of_not_shared? (h : shared? κ (ranked κ) = none) {i j : Nat} (hi : i < κ.size)
    (hj : j < κ.size) (hij : κ.getD i 0 = κ.getD j 0) : i = j := by
  have hcolours : ((ranked κ).map (κ.getD · 0)).Nodup :=
    List.pairwise_map.2 ((pairwise_lt_of_shared? (pairwise_ranked κ) h).imp Nat.ne_of_lt)
  exact List.inj_on_of_nodup_map hcolours (mem_ranked.2 hi) (mem_ranked.2 hj) hij

-- ==================================================== a colour of its own

theorem getD_own {c i j : Nat} (hi : i < κ.size) :
    (κ.setIfInBounds i c).getD j 0 = if i = j then c else κ.getD j 0 := by
  rw [Array.getD_eq_getD_getElem?, Array.getElem?_setIfInBounds]
  by_cases hij : i = j
  · rw [if_pos hij, if_pos hij, if_pos (hij ▸ hi), Option.getD_some]
  · rw [if_neg hij, if_neg hij, Array.getD_eq_getD_getElem?]

/-- With a colour of its own for one of them, fewer states share theirs. -/
theorem card_loose_own_lt {n c i : Nat} (hn : κ.size = n) (hfresh : ∀ j < n, κ.getD j 0 < c)
    (hi : i ∈ loose n κ) : (loose n (κ.setIfInBounds i c)).card < (loose n κ).card := by
  have hlt : i < κ.size := hn ▸ (mem_loose.1 hi).1
  refine Finset.card_lt_card ((Finset.ssubset_iff_of_subset ?_).2 ⟨i, hi, ?_⟩)
  · intro j hj
    obtain ⟨hj, k, hk, hkj, hcolour⟩ := mem_loose.1 hj
    rw [getD_own hlt, getD_own hlt] at hcolour
    split at hcolour
    · rename_i hik
      rw [if_neg fun hij => hkj (hik.symm.trans hij)] at hcolour
      exact absurd (hfresh j hj) (Nat.not_lt.2 (Nat.le_of_eq hcolour))
    · split at hcolour
      · exact absurd (hfresh k hk) (Nat.not_lt.2 (Nat.le_of_eq hcolour.symm))
      · exact mem_loose.2 ⟨hj, k, hk, hkj, hcolour⟩
  · intro hown
    obtain ⟨-, k, hk, hki, hcolour⟩ := mem_loose.1 hown
    rw [getD_own hlt, getD_own hlt, if_pos rfl, if_neg (Ne.symm hki)] at hcolour
    exact absurd (hfresh k hk) (Nat.not_lt.2 (Nat.le_of_eq hcolour.symm))

/-- States that correspond may get one new colour. -/
theorem Keeps.own (h : S.Keeps π κ μ) (hπ : S.Renames T π) (hκ : κ.size = S.size)
    (hμ : μ.size = T.size) {c i : Nat} (hi : i < S.size) :
    S.Keeps π (κ.setIfInBounds i c) (μ.setIfInBounds (π i) c) := by
  intro j hj
  rw [getD_own (hμ ▸ hπ.lt hi), getD_own (hκ ▸ hi), h j hj]
  refine if_congr ?_ rfl rfl
  exact ⟨hπ.injective hi hj, congrArg π⟩

/-- Where two states of one colour got a new one, they correspond. -/
theorem Keeps.of_own {c i j : Nat}
    (h : S.Keeps π (κ.setIfInBounds i c) (μ.setIfInBounds j c)) (hπ : S.Renames T π)
    (hκ : κ.size = S.size) (hμ : μ.size = T.size) (hfresh : ∀ k < S.size, κ.getD k 0 < c)
    (hfresh' : ∀ k < T.size, μ.getD k 0 < c) (hi : i < S.size) (hj : j < T.size)
    (hij : μ.getD j 0 = κ.getD i 0) : S.Keeps π κ μ := by
  intro k hk
  have hcolour := h k hk
  rw [getD_own (hμ ▸ hj), getD_own (hκ ▸ hi)] at hcolour
  by_cases hik : i = k
  · rw [if_pos hik] at hcolour
    split at hcolour
    · rename_i hjk
      rw [← hik, ← hij, hjk, hik]
    · exact absurd (hfresh' (π k) (hπ.lt hk)) (Nat.not_lt.2 (Nat.le_of_eq hcolour.symm))
  · rw [if_neg hik] at hcolour
    split at hcolour
    · exact absurd (hfresh k hk) (Nat.not_lt.2 (Nat.le_of_eq hcolour))
    · exact hcolour

theorem Keeps.comp (h : S.Keeps π κ μ) (h' : T.Keeps ρ μ ν) (hπ : S.Renames T π) :
    S.Keeps (ρ ∘ π) κ ν := fun i hi => (h' (π i) (hπ.lt hi)).trans (h i hi)

theorem Keeps.inverse (h : S.Keeps π κ μ) (hπ : S.Renames T π)
    (hρ : ∀ {i}, i < S.size → ρ (π i) = i) : T.Keeps ρ μ κ := by
  intro j hj
  obtain ⟨i, hi, rfl⟩ := hπ.exists_eq hj
  rw [hρ hi, h i hi]

/-- Colours that a renaming keeps are the same in order. -/
theorem Keeps.map_ranked (h : S.Keeps π κ μ) (hπ : S.Renames T π) (hκ : κ.size = S.size)
    (hμ : μ.size = T.size) : (ranked κ).map (κ.getD · 0) = (ranked μ).map (μ.getD · 0) := by
  have hsorted : ∀ κ : Colouring, ((ranked κ).map (κ.getD · 0)).Pairwise (· ≤ ·) := fun κ =>
    List.pairwise_map.2 (pairwise_ranked κ)
  refine List.Perm.eq_of_pairwise (fun _ _ _ _ => Nat.le_antisymm) (hsorted κ) (hsorted μ) ?_
  have hkept : (List.range S.size).map (κ.getD · 0)
      = ((List.range S.size).map π).map (μ.getD · 0) := by
    rw [List.map_map]
    exact List.map_congr_left fun i hi => (h i (List.mem_range.1 hi)).symm
  calc ((ranked κ).map (κ.getD · 0)).Perm ((List.range S.size).map (κ.getD · 0)) := by
        rw [← hκ]
        exact (perm_ranked κ).map _
    _ = ((List.range S.size).map π).map (μ.getD · 0) := hkept
    List.Perm _ ((List.range T.size).map (μ.getD · 0)) := hπ.perm_range.map _
    List.Perm _ ((ranked μ).map (μ.getD · 0)) := by
        rw [← hμ]
        exact ((perm_ranked μ).map _).symm

end Shape

namespace Comparison

open Shape

variable {C : Comparison} {κ μ κ' μ' : Colouring} {π : Nat → Nat}

-- =========================================================== one branch

/-- The colourings that a branch of the search goes on with. -/
def settled (C : Comparison) (κ μ : Colouring) : Colouring × Colouring :=
  C.refine (C.left.size + C.right.size) 0 κ μ

theorem exists_settled (hC : C.Fits) (κ μ : Colouring) :
    ∃ κ' μ', C.settled κ μ = (κ', μ') ∧ C.Recolours κ μ κ' μ' := by
  obtain ⟨n, hn⟩ : ∃ n, C.left.size + C.right.size = n + 1 := by
    have hsize := hC.left.start_lt
    exact ⟨C.left.size + C.right.size - 1, by omega⟩
  have hround := recolours_refine hC n 0 κ μ
  rw [← hn] at hround
  exact ⟨_, _, rfl, hround⟩

/-- The pairing at a leaf of the search passes the check. -/
def Leaf (C : Comparison) (κ μ : Colouring) : Prop :=
  C.left.renamedBy C.right (pairing κ.size (ranked κ) (ranked μ))
    (pairing μ.size (ranked μ) (ranked κ)) = true

/-- The images that are tried for a state. -/
def images (κ μ : Colouring) (i : Nat) : List Nat :=
  (ranked μ).filter fun j => decide (μ.getD j 0 = κ.getD i 0)

/-- Some image of a state leads to a renaming. -/
def branches (n : Nat) (C : Comparison) (κ μ : Colouring) (i : Nat) : Bool :=
  anyUpTo
    (fun j k => search n C.ofRight (μ.setIfInBounds j C.fresh) (μ.setIfInBounds k C.fresh))
    (fun j => search n C (κ.setIfInBounds i C.fresh) (μ.setIfInBounds j C.fresh)) []
    (images κ μ i)

/-- When a search succeeds: the colours are the same in order, and either
the pairing passes the check or a branch succeeds. -/
theorem search_iff {fuel : Nat} (h : C.settled κ μ = (κ', μ')) :
    search fuel C κ μ = true ↔
      (ranked κ').map (κ'.getD · 0) = (ranked μ').map (μ'.getD · 0) ∧
        (C.Leaf κ' μ' ∨ ∃ n i, fuel = n + 1 ∧ shared? κ' (ranked κ') = some i ∧
          branches n C κ' μ' i = true) := by
  unfold settled at h
  unfold search
  rw [h]
  dsimp only
  by_cases hmap : (ranked κ').map (κ'.getD · 0) = (ranked μ').map (μ'.getD · 0)
  · rw [if_pos hmap, and_iff_right hmap, Bool.or_eq_true]
    refine or_congr Iff.rfl ?_
    cases fuel with
    | zero =>
        refine iff_of_false Bool.false_ne_true fun hmore => ?_
        obtain ⟨n, -, hn, -⟩ := hmore
        cases hn
    | succ n =>
        cases hshared : shared? κ' (ranked κ') with
        | none =>
            refine iff_of_false Bool.false_ne_true fun hmore => ?_
            obtain ⟨_, _, -, hsome, -⟩ := hmore
            cases hsome
        | some i =>
            refine ⟨fun hany => ⟨n, i, rfl, rfl, hany⟩, fun hmore => ?_⟩
            obtain ⟨_, _, hn, hsome, hany⟩ := hmore
            cases hn
            cases hsome
            exact hany
  · rw [if_neg hmap]
    exact iff_of_false Bool.false_ne_true fun hmore => hmap hmore.1

-- ============================================================ soundness

theorem Leaf.exists_renames (h : C.Leaf κ μ) (hκ : κ.size = C.left.size)
    (hmap : (ranked κ).map (κ.getD · 0) = (ranked μ).map (μ.getD · 0)) :
    ∃ π, C.left.Renames C.right π ∧ C.left.Keeps π κ μ :=
  ⟨_, renames_of_renamedBy h, fun _ hi => (pairing_ranked hmap (hκ ▸ hi)).2⟩

/-- What is found to pass a test is one of the elements. -/
theorem exists_of_anyUpTo {α : Type} {like : α → α → Bool} {test : α → Bool} {failed xs : List α}
    (h : anyUpTo like test failed xs = true) : ∃ x ∈ xs, test x = true := by
  induction xs generalizing failed with
  | nil => cases h
  | cons x xs ih =>
      have hlater : ∀ failed, anyUpTo like test failed xs = true →
          ∃ y ∈ x :: xs, test y = true := by
        intro failed h
        obtain ⟨y, hy, htest⟩ := ih h
        exact ⟨y, List.mem_cons_of_mem _ hy, htest⟩
      unfold anyUpTo at h
      split at h
      · exact hlater _ h
      · rcases Bool.or_eq_true_iff.1 h with h | h
        · exact ⟨x, List.mem_cons_self, h⟩
        · exact hlater _ h

theorem Recolours.loose_of_shared? (h : C.Recolours κ μ κ' μ') {i : Nat}
    (hi : shared? κ' (ranked κ') = some i) : i ∈ loose C.left.size κ' := by
  rw [← h.size_left]
  exact mem_loose_of_shared? hi

theorem mem_images {i j : Nat} : j ∈ images κ μ i ↔ j < μ.size ∧ μ.getD j 0 = κ.getD i 0 := by
  unfold images
  rw [List.mem_filter, mem_ranked, decide_eq_true_eq]

/-- A search that succeeds does so for a renaming that keeps colours. -/
theorem exists_renames_of_search {fuel : Nat} (hC : C.Fits) (h : search fuel C κ μ = true) :
    ∃ π, C.left.Renames C.right π ∧ C.left.Keeps π κ μ := by
  induction fuel generalizing κ μ with
  | zero =>
      obtain ⟨κ', μ', hsettled, hround⟩ := exists_settled hC κ μ
      obtain ⟨hmap, hleaf | ⟨_, _, hn, -⟩⟩ := (search_iff hsettled).1 h
      · obtain ⟨π, hπ, hkeeps⟩ := hleaf.exists_renames hround.size_left hmap
        exact ⟨π, hπ, hround.keeps_before hπ hkeeps⟩
      · cases hn
  | succ n ih =>
      obtain ⟨κ', μ', hsettled, hround⟩ := exists_settled hC κ μ
      obtain ⟨hmap, hleaf | ⟨_, i, hn, hshared, hbranch⟩⟩ := (search_iff hsettled).1 h
      · obtain ⟨π, hπ, hkeeps⟩ := hleaf.exists_renames hround.size_left hmap
        exact ⟨π, hπ, hround.keeps_before hπ hkeeps⟩
      · cases hn
        obtain ⟨j, hj, htest⟩ := exists_of_anyUpTo hbranch
        obtain ⟨hj, hcolour⟩ := mem_images.1 hj
        obtain ⟨π, hπ, hown⟩ := ih htest
        have hi := (mem_loose.1 (hround.loose_of_shared? hshared)).1
        rw [hround.size_right] at hj
        have hkeeps := hown.of_own hπ hround.size_left hround.size_right hround.lt_left
          hround.lt_right hi hj hcolour
        exact ⟨π, hπ, hround.keeps_before hπ hkeeps⟩

-- ========================================================= completeness

theorem Fits.ofRight (hC : C.Fits) : C.ofRight.Fits :=
  ⟨hC.right, hC.right, hC.rightSources, hC.rightSources⟩

/-- Where no colour is shared, the pairing is the renaming sought. -/
theorem leaf_of_keeps (hC : C.Fits) (hπ : C.left.Renames C.right π) (hκ : C.left.Keeps π κ μ)
    (hleft : κ.size = C.left.size) (hright : μ.size = C.right.size)
    (h : shared? κ (ranked κ) = none) : C.Leaf κ μ := by
  have hmap := hκ.map_ranked hπ hleft hright
  refine hπ.renamedBy hC.left (fun i hi => ?_) fun i hi => ?_
  · obtain ⟨hlt, hcolour⟩ := pairing_ranked hmap (hleft ▸ hi)
    obtain ⟨k, hk, hpair⟩ := hπ.exists_eq (hright ▸ hlt)
    rw [← hpair, hκ k hk] at hcolour
    rw [← hpair, eq_of_not_shared? h (hleft ▸ hk) (hleft ▸ hi) hcolour]
  · obtain ⟨hlt, hcolour⟩ := pairing_ranked hmap.symm (hright ▸ hπ.lt hi)
    rw [hκ i hi] at hcolour
    exact eq_of_not_shared? h hlt (hleft ▸ hi) hcolour

/-- What the search finds for some colours it would find for colours like
them, by way of the renaming that makes them alike. -/
theorem exists_renames_of_like {fuel : Nat} (hC : C.Fits)
    (hlike : search fuel C.ofRight μ μ' = true) (h : search fuel C κ μ' = true) :
    ∃ π, C.left.Renames C.right π ∧ C.left.Keeps π κ μ := by
  obtain ⟨ρ, hρ, hkeepsρ⟩ := exists_renames_of_search hC.ofRight hlike
  obtain ⟨σ, hσ, hundo⟩ := hρ.exists_inverse hC.right
  obtain ⟨π, hπ, hkeepsπ⟩ := exists_renames_of_search hC h
  exact ⟨σ ∘ π, hπ.comp hσ, hkeepsπ.comp (hkeepsρ.inverse hρ hundo) hπ⟩

theorem Recolours.card_loose_le (h : C.Recolours κ μ κ' μ') :
    (loose C.left.size κ').card ≤ (loose C.left.size κ).card := by
  refine Finset.card_le_card fun i hi => ?_
  obtain ⟨hi, j, hj, hji, hcolour⟩ := mem_loose.1 hi
  exact mem_loose.2 ⟨hi, j, hj, hji, h.left j hj i hi hcolour⟩

/-- The search succeeds wherever a renaming keeps the colours, if as many
states as share theirs may get one of their own. -/
theorem search_of_renames {fuel : Nat} (hC : C.Fits) (hπ : C.left.Renames C.right π)
    (hκ : C.left.Keeps π κ μ) (hfuel : (loose C.left.size κ).card ≤ fuel) :
    search fuel C κ μ = true := by
  -- each branch leaves fewer loose states than the count allows
  induction fuel generalizing π κ μ with
  | zero =>
      obtain ⟨κ', μ', hsettled, hround⟩ := exists_settled hC κ μ
      have hκ' := hround.keeps hπ hκ
      have hmap := hκ'.map_ranked hπ hround.size_left hround.size_right
      have hnone : shared? κ' (ranked κ') = none := by
        refine Option.eq_none_iff_forall_ne_some.2 fun i hi => ?_
        have hpos := Finset.card_pos.2 ⟨i, hround.loose_of_shared? hi⟩
        have hle := hround.card_loose_le
        omega
      exact (search_iff hsettled).2
        ⟨hmap, Or.inl (leaf_of_keeps hC hπ hκ' hround.size_left hround.size_right hnone)⟩
  | succ n ih =>
      obtain ⟨κ', μ', hsettled, hround⟩ := exists_settled hC κ μ
      have hκ' := hround.keeps hπ hκ
      have hmap := hκ'.map_ranked hπ hround.size_left hround.size_right
      refine (search_iff hsettled).2 ⟨hmap, ?_⟩
      cases hshared : shared? κ' (ranked κ') with
      | none =>
          exact Or.inl (leaf_of_keeps hC hπ hκ' hround.size_left hround.size_right hshared)
      | some i =>
          refine Or.inr ⟨n, i, rfl, rfl, ?_⟩
          have hloose := hround.loose_of_shared? hshared
          have hi := (mem_loose.1 hloose).1
          -- with a colour of its own, i leaves the loose states
          have hfewer : (loose C.left.size (κ'.setIfInBounds i C.fresh)).card ≤ n := by
            have hlt := card_loose_own_lt hround.size_left hround.lt_left hloose
            have hle := hround.card_loose_le
            omega
          -- an image that is passed over would not have led to a renaming
          have hpassed : ∀ j k,
              search n C.ofRight (μ'.setIfInBounds j C.fresh) (μ'.setIfInBounds k C.fresh) = true →
              search n C (κ'.setIfInBounds i C.fresh) (μ'.setIfInBounds j C.fresh) = false →
              search n C (κ'.setIfInBounds i C.fresh) (μ'.setIfInBounds k C.fresh) = false := by
            intro j k hlike hfailed
            by_contra hfound
            obtain ⟨τ, hτ, hkeeps⟩ := exists_renames_of_like hC hlike (eq_true_of_ne_false hfound)
            have hback := ih hτ hkeeps hfewer
            rw [hfailed] at hback
            cases hback
          unfold branches
          rw [anyUpTo_eq_any hpassed [] _ fun _ h => absurd h List.not_mem_nil]
          refine List.any_eq_true.2 ⟨π i, mem_images.2 ⟨?_, hκ' i hi⟩, ?_⟩
          · rw [hround.size_right]
            exact hπ.lt hi
          · exact ih hπ (hκ'.own hπ hround.size_left hround.size_right hi) hfewer

-- ============================================================ comparison

/-- Two shapes are alike just when a renaming takes the one to the other. -/
theorem alike_iff (hC : C.Fits) : C.alike = true ↔ ∃ π, C.left.Renames C.right π := by
  constructor
  · intro h
    obtain ⟨π, hπ, -⟩ := exists_renames_of_search hC h
    exact ⟨π, hπ⟩
  · intro h
    obtain ⟨π, hπ⟩ := h
    have hpaints := paints_colourings C.left.outline C.right.outline C.left.size C.right.size
    have hkeeps : C.left.Keeps π C.initial.2.1 C.initial.2.2 := fun i hi =>
      (hpaints.across i hi (π i) (hπ.lt hi)).2 (hπ.outline hC.left hi)
    refine search_of_renames hC hπ hkeeps ?_
    unfold loose
    refine Nat.le_trans (Finset.card_filter_le _ _) ?_
    rw [Finset.card_range]

end Comparison

end Automata
