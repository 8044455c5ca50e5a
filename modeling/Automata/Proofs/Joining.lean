/-
Joined words, and when they can be told from the text.

A text in which words stand with separators between them can be read in
several ways if a word may hold the separator. It can be read in one way
only when the words are `Parted`: where the first word ends shows in the
text. Words of one length are parted by anything, a word that is itself a
comma included; other words are parted by what begins with a character
that none of them holds. Lines without line feeds, which are joined by
line feeds, are a case of the second kind (`lines_eq_of_intercalate_eq`).
-/
import Mathlib.Data.List.Basic

namespace Automata.Text

variable {sep v w x y : List Char} {vs ws : List (List Char)} {P : List Char → Prop} {a : Char}

/-- The text can stand behind a word among joined words. -/
def Follows (sep x : List Char) : Prop := x = [] ∨ ∃ more, x = sep ++ more

/-- Where a word ends shows in the text that it begins. -/
def Parted (sep : List Char) (P : List Char → Prop) : Prop :=
  ∀ ⦃v w x y⦄, P v → P w → Follows sep x → Follows sep y → v ++ x = w ++ y → v = w

/-- Words of one length are parted by whatever stands between them. -/
theorem parted_of_length (sep : List Char) (n : Nat) : Parted sep fun w => w.length = n :=
  fun _ _ _ _ hv hw _ _ h => (List.append_inj h (hv.trans hw.symm)).1

theorem takeWhile_append (hv : a ∉ v) (hx : Follows (a :: sep) x) :
    (v ++ x).takeWhile (· != a) = v := by
  have hall : ∀ c ∈ v, (c != a) = true := by
    intro c hc
    exact bne_iff_ne.2 fun e => hv (e ▸ hc)
  rw [List.takeWhile_append_of_pos hall]
  rcases hx with rfl | ⟨more, rfl⟩
  · rw [List.takeWhile_nil, List.append_nil]
  · rw [List.cons_append, List.takeWhile_cons_of_neg (by simp), List.append_nil]

/-- Words are parted by what begins with a character that none of them holds. -/
theorem parted_of_not_mem (a : Char) (sep : List Char) : Parted (a :: sep) fun w => a ∉ w := by
  intro v w x y hv hw hx hy h
  rw [← takeWhile_append hv hx, h, takeWhile_append hw hy]

/-- The first word is followed by each other with a separator before it. -/
theorem intercalate_cons (sep w : List Char) (ws : List (List Char)) :
    sep.intercalate (w :: ws) = w ++ ws.flatMap (sep ++ ·) := by
  induction ws generalizing w with
  | nil => rw [List.intercalate_singleton, List.flatMap_nil, List.append_nil]
  | cons v vs ih =>
      rw [List.intercalate_cons_cons, ih, List.flatMap_cons, List.append_assoc, List.append_assoc]

theorem follows_flatMap (sep : List Char) (ws : List (List Char)) :
    Follows sep (ws.flatMap (sep ++ ·)) := by
  cases ws with
  | nil => exact Or.inl rfl
  | cons w ws =>
      refine Or.inr ⟨w ++ ws.flatMap (sep ++ ·), ?_⟩
      rw [List.flatMap_cons, List.append_assoc]

namespace Parted

/-- Words that are parted can be told from the text in which each stands
behind a separator. -/
theorem eq_of_flatMap_eq (h : Parted sep P) (hsep : sep ≠ []) (hv : ∀ u ∈ vs, P u)
    (hw : ∀ u ∈ ws, P u) (he : vs.flatMap (sep ++ ·) = ws.flatMap (sep ++ ·)) : vs = ws := by
  induction vs generalizing ws with
  | nil =>
      cases ws with
      | nil => rfl
      | cons w ws =>
          rw [List.flatMap_nil, List.flatMap_cons, List.append_assoc] at he
          exact absurd (List.append_eq_nil_iff.1 he.symm).1 hsep
  | cons v vs ih =>
      cases ws with
      | nil =>
          rw [List.flatMap_nil, List.flatMap_cons, List.append_assoc] at he
          exact absurd (List.append_eq_nil_iff.1 he).1 hsep
      | cons w ws =>
          obtain ⟨hv, hvs⟩ := List.forall_mem_cons.1 hv
          obtain ⟨hw, hws⟩ := List.forall_mem_cons.1 hw
          rw [List.flatMap_cons, List.flatMap_cons, List.append_assoc, List.append_assoc] at he
          have hrest := List.append_cancel_left he
          have hword : v = w := h hv hw (follows_flatMap sep vs) (follows_flatMap sep ws) hrest
          subst hword
          exact congrArg (v :: ·) (ih hvs hws (List.append_cancel_left hrest))

/-- Joined words that are parted can be told from the text. -/
theorem cons_eq_of_intercalate_eq (h : Parted sep P) (hsep : sep ≠ [])
    (hv : ∀ u ∈ v :: vs, P u) (hw : ∀ u ∈ w :: ws, P u)
    (he : sep.intercalate (v :: vs) = sep.intercalate (w :: ws)) : v :: vs = w :: ws := by
  obtain ⟨hv, hvs⟩ := List.forall_mem_cons.1 hv
  obtain ⟨hw, hws⟩ := List.forall_mem_cons.1 hw
  rw [intercalate_cons, intercalate_cons] at he
  have hword : v = w := h hv hw (follows_flatMap sep vs) (follows_flatMap sep ws) he
  subst hword
  exact congrArg (v :: ·) (h.eq_of_flatMap_eq hsep hvs hws (List.append_cancel_left he))

/-- Of words that are not empty there may be none. -/
theorem eq_of_intercalate_eq (h : Parted sep P) (hsep : sep ≠ []) (hne : ∀ u, P u → u ≠ [])
    (hv : ∀ u ∈ vs, P u) (hw : ∀ u ∈ ws, P u) (he : sep.intercalate vs = sep.intercalate ws) :
    vs = ws := by
  cases vs with
  | nil =>
      cases ws with
      | nil => rfl
      | cons w ws =>
          rw [List.intercalate_nil, intercalate_cons] at he
          exact absurd (List.append_eq_nil_iff.1 he.symm).1 (hne w (hw w List.mem_cons_self))
  | cons v vs =>
      cases ws with
      | nil =>
          rw [List.intercalate_nil, intercalate_cons] at he
          exact absurd (List.append_eq_nil_iff.1 he).1 (hne v (hv v List.mem_cons_self))
      | cons w ws => exact h.cons_eq_of_intercalate_eq hsep hv hw he

end Parted

/-- Lines without line feeds can be told from the text that joins them. -/
theorem lines_eq_of_intercalate_eq {l m : String} {ls ms : List String}
    (hl : ∀ k ∈ l :: ls, '\n' ∉ k.toList) (hm : ∀ k ∈ m :: ms, '\n' ∉ k.toList)
    (he : "\n".intercalate (l :: ls) = "\n".intercalate (m :: ms)) : l :: ls = m :: ms := by
  have hmap : ∀ {ks : List String}, (∀ k ∈ ks, '\n' ∉ k.toList) →
      ∀ u ∈ ks.map String.toList, '\n' ∉ u := by
    intro ks h u hu
    obtain ⟨k, hk, rfl⟩ := List.mem_map.1 hu
    exact h k hk
  have hchars := congrArg String.toList he
  rw [String.toList_intercalate, String.toList_intercalate] at hchars
  have hlines := (parted_of_not_mem '\n' []).cons_eq_of_intercalate_eq (List.cons_ne_nil _ _)
    (hmap hl) (hmap hm) hchars
  exact List.map_injective_iff.2 (fun _ _ => String.toList_inj.1) hlines

end Automata.Text
