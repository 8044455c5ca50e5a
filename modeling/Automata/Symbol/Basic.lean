/-
Symbols: the values that name the states and the letters of an automaton.

A truth value counts as a number, `false` as 0 and `true` as 1. Symbols
are *alike*, `a ≈ b`, when they are the same but for that: `true` is
alike to 1, and nothing else is alike to something else. Sets, tables
and comparisons of automata do not tell alike symbols apart, but each
symbol is shown as it was written.

Two orders live on symbols. The *size order* `<` puts numbers by value
and texts by code points; it leaves alike symbols, and only them, in one
place. Only symbols of one sort, numbers or texts, are `comparable` by
size; the order is extended to all symbols so that its laws need no side
conditions, and `comparable` tells where its answer means something. The
*listing order* settles how sets are written down: first by kind (null,
truth values, integers, texts), then by size.

Main statements: the size order is total (an instance of `Std.TransCmp`),
and leaves alike symbols and only them in one place (`order_eq_iff`).
-/
import Automata.Order

namespace Automata

/-- The name of a state or of a letter. -/
inductive Symbol where
  | null
  | bool (b : Bool)
  | int (n : Int)
  | str (s : String)
  deriving DecidableEq

namespace Symbol

/-- The integer that numbers something, as a symbol. -/
def ofNat (n : Nat) : Symbol := int n

-- ======================================================= alike symbols

/-- The symbol written plainly: a truth value as the integer it counts as. -/
def plain : Symbol → Symbol
  | bool b => int (if b then 1 else 0)
  | a => a

/-- Whether two symbols are written plainly in the same way. -/
def Alike (a b : Symbol) : Prop := a.plain = b.plain

instance : Setoid Symbol where
  r := Alike
  iseqv := ⟨fun _ => rfl, Eq.symm, Eq.trans⟩

instance (a b : Symbol) : Decidable (a ≈ b) :=
  inferInstanceAs (Decidable (a.plain = b.plain))

theorem alike_def {a b : Symbol} : a ≈ b ↔ a.plain = b.plain := Iff.rfl

@[simp] theorem alike_refl (a : Symbol) : a ≈ a := rfl

@[simp] theorem plain_plain (a : Symbol) : a.plain.plain = a.plain := by
  cases a <;> rfl

theorem plain_alike (a : Symbol) : a.plain ≈ a := plain_plain a

theorem ofNat_inj {m n : Nat} : ofNat m = ofNat n ↔ m = n := by
  show int m = int n ↔ m = n
  rw [int.injEq, Int.natCast_inj]

@[simp] theorem ofNat_alike_iff {m n : Nat} : ofNat m ≈ ofNat n ↔ m = n := ofNat_inj

/-- Null is alike to itself only. -/
theorem alike_null_iff {a : Symbol} : a ≈ null ↔ a = null := by
  rw [alike_def]
  cases a <;> simp [plain]

/-- A text is alike to itself only. -/
theorem alike_str_iff {a : Symbol} {s : String} : a ≈ str s ↔ a = str s := by
  rw [alike_def]
  cases a <;> simp [plain]

-- ======================================================== size order

/-- The sorts of symbols, as numbers: null, numbers and texts. -/
def sort : Symbol → Nat
  | null => 0
  | bool _ => 1
  | int _ => 1
  | str _ => 2

/-- The integer that a symbol counts as, where it counts as one. -/
def value : Symbol → Int
  | bool b => if b then 1 else 0
  | int n => n
  | _ => 0

/-- The characters of a text. -/
def chars : Symbol → List Char
  | str s => s.toList
  | _ => []

/-- How two symbols stand to each other in size. -/
def order (a b : Symbol) : Ordering :=
  compareLex (comparing sort compareNumbers)
    (compareLex (comparing value compareInts)
      (comparing chars (List.compareLex (comparing Char.toNat compareNumbers)))) a b

/-- The first symbol is smaller than the second. -/
instance : LT Symbol where
  lt a b := a.order b = .lt

instance : DecidableLT Symbol := fun a b =>
  inferInstanceAs (Decidable (a.order b = .lt))

theorem lt_def {a b : Symbol} : a < b ↔ a.order b = .lt := Iff.rfl

instance : Std.LawfulEqCmp (comparing Char.toNat compareNumbers) where
  eq_of_compare h := Char.toNat_inj.1 (comparing_eq_iff.1 h)

/-- Symbols that have their sort, value and characters in common are alike. -/
theorem alike_iff {a b : Symbol} :
    a ≈ b ↔ a.sort = b.sort ∧ a.value = b.value ∧ a.chars = b.chars := by
  rw [alike_def]
  cases a <;> cases b <;> simp [plain, sort, value, chars, String.toList_inj]

theorem order_eq_iff {a b : Symbol} : a.order b = .eq ↔ a ≈ b := by
  rw [order, compareLex_eq_eq, compareLex_eq_eq, comparing_eq_iff, comparing_eq_iff,
    comparing_eq_iff, alike_iff]

instance : Std.TransCmp order := inferInstanceAs (Std.TransCmp (compareLex _ _))

theorem order_swap (a b : Symbol) : a.order b = (b.order a).swap := Std.OrientedCmp.eq_swap

theorem lt_trans {a b c : Symbol} (h : a < b) (h' : b < c) : a < c :=
  Std.TransCmp.lt_trans h h'

theorem not_alike_of_lt {a b : Symbol} (h : a < b) : ¬a ≈ b := fun e => by
  rw [lt_def, order_eq_iff.2 e] at h
  cases h

theorem lt_irrefl (a : Symbol) : ¬a < a := fun h => not_alike_of_lt h rfl

theorem lt_asymm {a b : Symbol} (h : a < b) : ¬b < a := fun h' =>
  lt_irrefl a (lt_trans h h')

theorem lt_trichotomy (a b : Symbol) : a < b ∨ a ≈ b ∨ b < a := by
  rw [lt_def, lt_def, ← order_eq_iff, order_swap b a]
  cases a.order b <;> simp

theorem not_lt_trans {a b c : Symbol} (h : ¬b < a) (h' : ¬c < b) : ¬c < a := by
  intro hca
  rcases lt_trichotomy a b with hab | hab | hba
  · exact h' (lt_trans hca hab)
  · exact h' (by rwa [lt_def, ← Std.TransCmp.congr_right (order_eq_iff.2 hab)])
  · exact h hba

theorem ofNat_lt_ofNat_iff {m n : Nat} : ofNat m < ofNat n ↔ m < n := by
  have hforth : ∀ {i j : Nat}, i < j → ofNat i < ofNat j := by
    intro i j h
    have hvalues : compareInts i j = .lt := if_pos (Int.ofNat_lt.2 h)
    show (compareInts i j).then _ = .lt
    rw [hvalues]
    rfl
  refine ⟨fun h => ?_, hforth⟩
  rcases Nat.lt_trichotomy m n with hmn | rfl | hnm
  · exact hmn
  · exact absurd h (lt_irrefl _)
  · exact absurd h (lt_asymm (hforth hnm))

theorem order_congr {a a' b b' : Symbol} (h : a ≈ a') (h' : b ≈ b') : a.order b = a'.order b' := by
  rw [Std.TransCmp.congr_left (order_eq_iff.2 h), Std.TransCmp.congr_right (order_eq_iff.2 h')]

theorem lt_congr {a a' b b' : Symbol} (h : a ≈ a') (h' : b ≈ b') : a < b ↔ a' < b' := by
  rw [lt_def, order_congr h h', ← lt_def]

-- ========================================================= comparable

/-- Whether sizes can be compared: of two numbers or of two texts. -/
def comparable (a b : Symbol) : Bool := a.sort = b.sort && a.sort != 0

theorem comparable_comm (a b : Symbol) : a.comparable b = b.comparable a := by
  rw [Bool.eq_iff_iff]
  simp [comparable]
  omega

theorem comparable_trans {a b c : Symbol} (h : a.comparable b = true)
    (h' : a.comparable c = true) : b.comparable c = true := by
  simp [comparable] at h h' ⊢
  omega

theorem comparable_congr {a a' b b' : Symbol} (h : a ≈ a') (h' : b ≈ b') :
    a.comparable b = a'.comparable b' := by
  unfold comparable
  rw [(alike_iff.1 h).1, (alike_iff.1 h').1]

theorem comparable_self {a : Symbol} (h : a ≠ null) : a.comparable a = true := by
  cases a with
  | null => exact absurd rfl h
  | bool b => rfl
  | int n => rfl
  | str s => rfl

/-- Any two of the symbols can be compared by size. -/
def Comparable (xs : List Symbol) : Prop := xs.Pairwise fun x y => x.comparable y = true

theorem Comparable.comparable_of_ne {xs : List Symbol} (h : Comparable xs) {x y : Symbol}
    (hx : x ∈ xs) (hy : y ∈ xs) (hne : x ≠ y) : x.comparable y = true := by
  unfold Comparable at h
  have hforth : xs.Pairwise fun x y => x ≠ y → x.comparable y = true := by
    refine h.imp ?_
    intro x y hc _
    exact hc
  have hback : xs.Pairwise (flip fun x y : Symbol => x ≠ y → x.comparable y = true) := by
    refine h.imp ?_
    intro x y hc _
    rw [comparable_comm]
    exact hc
  exact hforth.forall_of_forall_of_flip (fun _ _ hxx => absurd rfl hxx) hback hx hy hne

/-- It is enough to compare the first symbol with all others. -/
theorem comparable_iff {xs : List Symbol} :
    Comparable xs ↔
      match xs with
      | [] => True
      | x :: rest => ∀ y ∈ rest, x.comparable y = true := by
  cases xs with
  | nil => simp [Comparable]
  | cons x rest =>
    rw [Comparable, List.pairwise_cons]
    refine ⟨And.left, fun h => ⟨h, ?_⟩⟩
    exact List.pairwise_of_forall_mem_list fun y hy z hz => comparable_trans (h y hy) (h z hz)

instance : (xs : List Symbol) → Decidable (Comparable xs)
  | [] => decidable_of_iff _ comparable_iff.symm
  | _ :: _ => decidable_of_iff _ comparable_iff.symm

-- ====================================================== listing order

/-- The place of a symbol's kind in the listing order. -/
def rank : Symbol → Nat
  | null => 0
  | bool _ => 1
  | int _ => 2
  | str _ => 3

/-- Whether the first symbol is listed before the second: by kind, then
by size. -/
def listedBefore (a b : Symbol) : Bool :=
  if a.rank = b.rank then decide (a < b) else decide (a.rank < b.rank)

end Symbol

end Automata
