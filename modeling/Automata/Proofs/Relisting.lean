/-
An automaton may be presented in many ways: its states, letters and
accepting states in any order and repeated at will, the rows of its table
and the entries of each row in any order.

A presentation `Relists` another when it says the same in such a way. Sets
are told apart by what lies in them and tables by what is looked up in
them, so the presented data are alike (`Relists.description_alike`), and
the one presentation is of an automaton when the other is
(`Relists.exists_build`).
-/
import Automata.Automaton.Basic
import Automata.Partition.Basic

namespace Automata

-- ============================================================= entries

variable {β γ : Type} {rel : β → β → Prop} {rel' : γ → γ → Prop} {es fs : List (Symbol × β)}

/-- The symbol is alike to one of the list. -/
def Symbol.Among (x : Symbol) (xs : List Symbol) : Prop := ∃ y ∈ xs, x ≈ y

instance (x : Symbol) (xs : List Symbol) : Decidable (x.Among xs) :=
  inferInstanceAs (Decidable (∃ y ∈ xs, x ≈ y))

theorem Symbol.among_of_mem {x : Symbol} {xs : List Symbol} (h : x ∈ xs) : x.Among xs :=
  ⟨x, h, Setoid.refl x⟩

theorem Symbol.among_congr {x y : Symbol} {xs : List Symbol} (h : x ≈ y) :
    x.Among xs ↔ y.Among xs := by
  constructor
  · intro hx
    obtain ⟨z, hz, hxz⟩ := hx
    exact ⟨z, hz, Setoid.trans (Setoid.symm h) hxz⟩
  · intro hy
    obtain ⟨z, hz, hyz⟩ := hy
    exact ⟨z, hz, Setoid.trans h hyz⟩

/-- Each symbol of either list is alike to one of the other. -/
def Symbol.SameElements (xs ys : List Symbol) : Prop :=
  (∀ x ∈ xs, ∃ y ∈ ys, x ≈ y) ∧ ∀ y ∈ ys, ∃ x ∈ xs, x ≈ y

instance (xs ys : List Symbol) : Decidable (Symbol.SameElements xs ys) :=
  inferInstanceAs (Decidable (_ ∧ _))

/-- In neither list are there two entries for a key, and each entry of
either has one of the other for its key with a related value. -/
structure SameEntries (rel : β → β → Prop) (es fs : List (Symbol × β)) : Prop where
  distinct_left : Symbol.Distinct (es.map Prod.fst)
  distinct_right : Symbol.Distinct (fs.map Prod.fst)
  forth : ∀ e ∈ es, ∃ f ∈ fs, e.1 ≈ f.1 ∧ rel e.2 f.2
  back : ∀ f ∈ fs, ∃ e ∈ es, e.1 ≈ f.1 ∧ rel e.2 f.2

instance [∀ x y, Decidable (rel x y)] : Decidable (SameEntries rel es fs) :=
  decidable_of_iff (Symbol.Distinct (es.map Prod.fst) ∧ Symbol.Distinct (fs.map Prod.fst) ∧
      (∀ e ∈ es, ∃ f ∈ fs, e.1 ≈ f.1 ∧ rel e.2 f.2) ∧ ∀ f ∈ fs, ∃ e ∈ es, e.1 ≈ f.1 ∧ rel e.2 f.2)
    ⟨fun ⟨hl, hr, hforth, hback⟩ => ⟨hl, hr, hforth, hback⟩,
      fun h => ⟨h.distinct_left, h.distinct_right, h.forth, h.back⟩⟩

theorem Symbol.Distinct.eq_of_alike (h : Symbol.Distinct (es.map Prod.fst)) {e f : Symbol × β}
    (he : e ∈ es) (hf : f ∈ es) (hef : e.1 ≈ f.1) : e = f := by
  unfold Symbol.Distinct at h
  rw [List.pairwise_map] at h
  have hforth : es.Pairwise fun e f => e.1 ≈ f.1 → e = f :=
    h.imp fun {e f} hne heq => absurd heq hne
  have hback : es.Pairwise (flip fun e f => e.1 ≈ f.1 → e = f) :=
    h.imp fun {e f} hne heq => absurd (Setoid.symm heq) hne
  exact hforth.forall_of_forall_of_flip (fun _ _ _ => rfl) hback he hf hef

namespace SameEntries

theorem symm (h : SameEntries rel es fs) : SameEntries (flip rel) fs es where
  distinct_left := h.distinct_right
  distinct_right := h.distinct_left
  forth := by
    intro f hf
    obtain ⟨e, he, hkey, hvalue⟩ := h.back f hf
    exact ⟨e, he, Setoid.symm hkey, hvalue⟩
  back := by
    intro e he
    obtain ⟨f, hf, hkey, hvalue⟩ := h.forth e he
    exact ⟨f, hf, Setoid.symm hkey, hvalue⟩

/-- Values are mapped to related values. -/
theorem map {φ : β → γ} (h : SameEntries rel es fs) (hφ : ∀ {v w}, rel v w → rel' (φ v) (φ w)) :
    SameEntries rel' (es.map fun e => (e.1, φ e.2)) (fs.map fun f => (f.1, φ f.2)) where
  distinct_left := by
    rw [List.map_map]
    exact h.distinct_left
  distinct_right := by
    rw [List.map_map]
    exact h.distinct_right
  forth := by
    intro _ hmem
    obtain ⟨e, he, rfl⟩ := List.mem_map.1 hmem
    obtain ⟨f, hf, hkey, hvalue⟩ := h.forth e he
    exact ⟨_, List.mem_map_of_mem hf, hkey, hφ hvalue⟩
  back := by
    intro _ hmem
    obtain ⟨f, hf, rfl⟩ := List.mem_map.1 hmem
    obtain ⟨e, he, hkey, hvalue⟩ := h.back f hf
    exact ⟨_, List.mem_map_of_mem he, hkey, hφ hvalue⟩

/-- What is looked up in the one list has a related value in the other. -/
theorem exists_get? (h : SameEntries rel es fs) {k : Symbol} {v : β}
    (hv : (SymbolMap.ofList es).get? k = some v) :
    ∃ w, (SymbolMap.ofList fs).get? k = some w ∧ rel v w := by
  obtain ⟨j, hj, hkj⟩ := SymbolMap.exists_of_get?_ofList hv
  obtain ⟨f, hf, hjf, hvalue⟩ := h.forth _ hj
  have hkf : k ≈ f.1 := Setoid.trans hkj hjf
  refine ⟨f.2, SymbolMap.get?_ofList_of_mem hf hkf fun e he hke => ?_, hvalue⟩
  have hef := Setoid.trans (Setoid.symm hke) hkf
  rw [h.distinct_right.eq_of_alike he hf hef]

/-- Look-ups give the same where related values are the same. -/
theorem map_get?_eq {g : β → γ} (h : SameEntries rel es fs) (hg : ∀ {v w}, rel v w → g v = g w)
    (k : Symbol) :
    ((SymbolMap.ofList es).get? k).map g = ((SymbolMap.ofList fs).get? k).map g := by
  cases hv : (SymbolMap.ofList es).get? k with
  | some v =>
      obtain ⟨w, hw, hvw⟩ := h.exists_get? hv
      rw [hw, Option.map_some, Option.map_some, hg hvw]
  | none =>
      cases hw : (SymbolMap.ofList fs).get? k with
      | none => rfl
      | some w =>
          obtain ⟨v, hv', -⟩ := h.symm.exists_get? hw
          rw [hv] at hv'
          cases hv'

end SameEntries

theorem SymbolSet.mem_ofList_iff_among {x : Symbol} {xs : List Symbol} :
    x ∈ SymbolSet.ofList xs ↔ x.Among xs := mem_ofList

/-- For a condition that does not tell alike symbols apart. -/
theorem SymbolSet.forall_mem_ofList_iff {P : Symbol → Prop} {xs : List Symbol}
    (hP : ∀ {x y}, x ≈ y → (P x ↔ P y)) : (∀ x ∈ ofList xs, P x) ↔ ∀ x ∈ xs, P x := by
  constructor
  · intro h x hx
    exact h x (mem_ofList_iff_among.2 (Symbol.among_of_mem hx))
  · intro h x hx
    obtain ⟨y, hy, hxy⟩ := mem_ofList_iff_among.1 hx
    exact (hP hxy).2 (h y hy)

theorem SymbolSet.ofList_alike {xs ys : List Symbol} (h : Symbol.SameElements xs ys) :
    SymbolSet.ofList xs ≈ SymbolSet.ofList ys := by
  refine SymbolSet.alike_iff.2 fun s => ?_
  rw [mem_ofList, mem_ofList]
  constructor
  · intro hs
    obtain ⟨x, hx, hsx⟩ := hs
    obtain ⟨y, hy, hxy⟩ := h.1 x hx
    exact ⟨y, hy, Setoid.trans hsx hxy⟩
  · intro hs
    obtain ⟨y, hy, hsy⟩ := hs
    obtain ⟨x, hx, hxy⟩ := h.2 y hy
    exact ⟨x, hx, Setoid.trans hsy (Setoid.symm hxy)⟩

-- ======================================================= presentations

/-- The presentations list the same states, letters and accepting states
in any order and with any repetitions, name the same start, and give the
same rows with the same entries in any order. -/
structure Presentation.Relists (p q : Presentation) : Prop where
  states : Symbol.SameElements p.states q.states
  alphabet : Symbol.SameElements p.alphabet q.alphabet
  start : p.start ≈ q.start
  accepting : Symbol.SameElements p.accepting q.accepting
  delta : SameEntries (SameEntries (· ≈ ·)) p.delta q.delta

instance (p q : Presentation) : Decidable (p.Relists q) :=
  decidable_of_iff (Symbol.SameElements p.states q.states ∧
      Symbol.SameElements p.alphabet q.alphabet ∧ p.start ≈ q.start ∧
      Symbol.SameElements p.accepting q.accepting ∧
      SameEntries (SameEntries (· ≈ ·)) p.delta q.delta)
    ⟨fun ⟨hstates, halphabet, hstart, haccepting, hdelta⟩ =>
        ⟨hstates, halphabet, hstart, haccepting, hdelta⟩,
      fun h => ⟨h.states, h.alphabet, h.start, h.accepting, h.delta⟩⟩

/-- What both present is alike. -/
theorem Presentation.Relists.description_alike {p q : Presentation} (h : p.Relists q) :
    p.description ≈ q.description := by
  refine Description.alike_iff.2 ⟨SymbolSet.ofList_alike h.states,
    SymbolSet.ofList_alike h.alphabet, h.start, SymbolSet.ofList_alike h.accepting, fun s => ?_⟩
  have hrows : SameEntries (fun row row' : Row => row.plain Symbol.plain = row'.plain Symbol.plain)
      (p.delta.map fun row => (row.1, SymbolMap.ofList row.2))
      (q.delta.map fun row => (row.1, SymbolMap.ofList row.2)) := by
    refine h.delta.map fun {v w} hvw => SymbolMap.plain_eq_iff.2 fun c => ?_
    exact hvw.map_get?_eq (fun halike => halike) c
  exact hrows.map_get?_eq id s

/-- Data that are alike to those of an automaton are those of one. -/
theorem Automaton.exists_build_of_alike {A : Automaton} {d : Description}
    (h : A.toDescription ≈ d) : ∃ B, d.build = .ok B ∧ A ≈ B := by
  obtain ⟨hstates, halphabet, hstart, haccepting, hdelta⟩ := Description.alike_iff.1 h
  have hmem := SymbolSet.alike_iff.1 hstates
  have hstart' : d.start ∈ d.states := by
    rw [← hmem, ← SymbolSet.mem_congr hstart]
    exact A.start_mem
  have hsub : ∀ s ∈ d.accepting, s ∈ d.states := fun s hs =>
    (hmem s).1 (A.accepting_subset ((SymbolSet.alike_iff.1 haccepting s).2 hs))
  obtain ⟨B, hB, hBd⟩ := Description.exists_build hstart' hsub fun s hs => by
    obtain ⟨row, hrow, hall⟩ := Description.gaps_eq_nil_iff.1 A.gaps_eq_nil s ((hmem s).2 hs)
    have hrows := hdelta s
    rw [hrow, Option.map_some] at hrows
    obtain ⟨row', hrow', hplain⟩ := Option.map_eq_some_iff.1 hrows.symm
    refine ⟨row', hrow', fun c hc => ?_⟩
    obtain ⟨t, ht, hts⟩ := hall c ((SymbolSet.alike_iff.1 halphabet c).2 hc)
    have hentry := SymbolMap.plain_eq_iff.1 hplain c
    rw [ht, Option.map_some] at hentry
    obtain ⟨u, hu, htu⟩ := Option.map_eq_some_iff.1 hentry
    have halike : t ≈ u := htu.symm
    exact ⟨u, hu, (hmem u).1 ((SymbolSet.mem_congr halike).1 hts)⟩
  subst hBd
  exact ⟨B, hB, h⟩

/-- What relists a presentation of an automaton presents an automaton,
which is alike. -/
theorem Presentation.Relists.exists_build {p q : Presentation} {A : Automaton} (h : p.Relists q)
    (hA : p.build = .ok A) : ∃ B, q.build = .ok B ∧ A ≈ B := by
  refine Automaton.exists_build_of_alike ?_
  rw [Description.build_eq_ok_iff.1 hA]
  exact h.description_alike

end Automata
