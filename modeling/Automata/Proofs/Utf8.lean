/-
The bytes of text files: what has no flaw is a text.

Bytes are checked one after the other, against the ranges that the first
byte of a character sets for those behind it. `IsSequence` says at one
glance which bytes make up a character. The checks pass just these
(`isSequence_of_owed`, `exists_owed`), and just these are what characters
are encoded in (`exists_utf8EncodeChar_iff`): the first byte tells how
many there are, the others have six bits each, and the two that are
bounded more narrowly keep out longer ways to write a character, the
surrogates, and numbers beyond the last character. From one character
this goes on to all of them by induction on the bytes, so a flaw is found
in exactly the bytes that encode no text (`firstFlaw?_eq_none_iff`).
-/
import Mathlib.Data.List.Forall2
import Automata.Text.Utf8

namespace Automata.Text

variable {b t : UInt8} {bs ts : List UInt8} {owed : List (UInt8 × UInt8)} {v : Nat}

-- ======================================================= one character

/-- The byte lies in the range. -/
def Within (t : UInt8) (range : UInt8 × UInt8) : Prop := range.1 ≤ t ∧ t ≤ range.2

/-- The byte can stand behind the first one of a character. -/
def IsTail (t : UInt8) : Prop := 0x80 ≤ t.toNat ∧ t.toNat ≤ 0xBF

/-- The bytes make up a character: as many as the first one says, no more
than it needs, and neither a surrogate nor one beyond the last. -/
def IsSequence (b : UInt8) : List UInt8 → Prop
  | [] => b.toNat ≤ 0x7F
  | [t] => 0xC2 ≤ b.toNat ∧ b.toNat ≤ 0xDF ∧ IsTail t
  | [t, u] => 0xE0 ≤ b.toNat ∧ b.toNat ≤ 0xEF ∧ IsTail t ∧ IsTail u ∧
    (b.toNat = 0xE0 → 0xA0 ≤ t.toNat) ∧ (b.toNat = 0xED → t.toNat ≤ 0x9F)
  | [t, u, w] => 0xF0 ≤ b.toNat ∧ b.toNat ≤ 0xF4 ∧ IsTail t ∧ IsTail u ∧ IsTail w ∧
    (b.toNat = 0xF0 → 0x90 ≤ t.toNat) ∧ (b.toNat = 0xF4 → t.toNat ≤ 0x8F)
  | _ => False

-- ============================================================== ranges

theorem continuations?_eq (b : UInt8) : continuations? b =
    if b.toNat < 0x80 then some []
    else if b.toNat < 0xC2 then none
    else if b.toNat < 0xE0 then some [(0x80, 0xBF)]
    else if b.toNat = 0xE0 then some [(0xA0, 0xBF), (0x80, 0xBF)]
    else if b.toNat = 0xED then some [(0x80, 0x9F), (0x80, 0xBF)]
    else if b.toNat < 0xF0 then some [(0x80, 0xBF), (0x80, 0xBF)]
    else if b.toNat = 0xF0 then some [(0x90, 0xBF), (0x80, 0xBF), (0x80, 0xBF)]
    else if b.toNat = 0xF4 then some [(0x80, 0x8F), (0x80, 0xBF), (0x80, 0xBF)]
    else if b.toNat < 0xF4 then some [(0x80, 0xBF), (0x80, 0xBF), (0x80, 0xBF)]
    else none := by
  simp only [continuations?, UInt8.lt_iff_toNat_lt, ← UInt8.toNat_inj]
  rfl

theorem Within.isTail {lo hi : UInt8} (h : Within t (lo, hi)) (hlo : 0x80 ≤ lo.toNat)
    (hhi : hi.toNat ≤ 0xBF) : IsTail t :=
  ⟨Nat.le_trans hlo h.1, Nat.le_trans h.2 hhi⟩

theorem isSequence_of_owed (h : continuations? b = some owed) (hts : List.Forall₂ Within ts owed) :
    IsSequence b ts := by
  rw [continuations?_eq] at h
  split at h
  · cases h
    cases hts
    exact Nat.le_of_lt_succ ‹_›
  split at h
  · cases h
  split at h
  · cases h
    obtain _ | ⟨ht, _ | _⟩ := hts
    exact ⟨by omega, by omega, ht⟩
  -- three bytes, where the second one is in a shorter range, or in the whole
  split at h
  · cases h
    obtain _ | ⟨ht, _ | ⟨hu, _ | _⟩⟩ := hts
    exact ⟨by omega, by omega, ht.isTail (by decide) (by decide), hu, fun _ => ht.1, by omega⟩
  split at h
  · cases h
    obtain _ | ⟨ht, _ | ⟨hu, _ | _⟩⟩ := hts
    exact ⟨by omega, by omega, ht.isTail (by decide) (by decide), hu, by omega, fun _ => ht.2⟩
  split at h
  · cases h
    obtain _ | ⟨ht, _ | ⟨hu, _ | _⟩⟩ := hts
    exact ⟨by omega, by omega, ht, hu, by omega, by omega⟩
  -- four bytes, likewise
  split at h
  · cases h
    obtain _ | ⟨ht, _ | ⟨hu, _ | ⟨hw, _ | _⟩⟩⟩ := hts
    exact ⟨by omega, by omega, ht.isTail (by decide) (by decide), hu, hw, fun _ => ht.1, by omega⟩
  split at h
  · cases h
    obtain _ | ⟨ht, _ | ⟨hu, _ | ⟨hw, _ | _⟩⟩⟩ := hts
    exact ⟨by omega, by omega, ht.isTail (by decide) (by decide), hu, hw, by omega, fun _ => ht.2⟩
  split at h
  · cases h
    obtain _ | ⟨ht, _ | ⟨hu, _ | ⟨hw, _ | _⟩⟩⟩ := hts
    exact ⟨by omega, by omega, ht, hu, hw, by omega, by omega⟩
  · cases h

theorem exists_owed (h : IsSequence b ts) :
    ∃ owed, continuations? b = some owed ∧ List.Forall₂ Within ts owed := by
  rw [continuations?_eq]
  match ts, h with
  | [], h =>
      rw [if_pos (Nat.lt_succ_of_le h)]
      exact ⟨_, rfl, .nil⟩
  | [t], h =>
      obtain ⟨hb, hb', ht⟩ := h
      rw [if_neg (by omega), if_neg (by omega), if_pos (by omega)]
      exact ⟨_, rfl, .cons ht .nil⟩
  | [t, u], h =>
      obtain ⟨hb, hb', ht, hu, hlow, hhigh⟩ := h
      rw [if_neg (by omega), if_neg (by omega), if_neg (by omega)]
      split
      · rename_i heq
        exact ⟨_, rfl, .cons ⟨hlow heq, ht.2⟩ (.cons hu .nil)⟩
      split
      · rename_i heq
        exact ⟨_, rfl, .cons ⟨ht.1, hhigh heq⟩ (.cons hu .nil)⟩
      · rw [if_pos (by omega)]
        exact ⟨_, rfl, .cons ht (.cons hu .nil)⟩
  | [t, u, w], h =>
      obtain ⟨hb, hb', ht, hu, hw, hlow, hhigh⟩ := h
      rw [if_neg (by omega), if_neg (by omega), if_neg (by omega), if_neg (by omega),
        if_neg (by omega), if_neg (by omega)]
      split
      · rename_i heq
        exact ⟨_, rfl, .cons ⟨hlow heq, ht.2⟩ (.cons hu (.cons hw .nil))⟩
      split
      · rename_i heq
        exact ⟨_, rfl, .cons ⟨ht.1, hhigh heq⟩ (.cons hu (.cons hw .nil))⟩
      · rw [if_pos (by omega)]
        exact ⟨_, rfl, .cons ht (.cons hu (.cons hw .nil))⟩

-- ============================================================ encoding

/-- The bytes that a character with the number is encoded in. -/
def codes (v : Nat) : List Nat :=
  if v ≤ 0x7F then [v]
  else if v ≤ 0x7FF then [v / 64 + 0xC0, v % 64 + 0x80]
  else if v ≤ 0xFFFF then [v / 4096 + 0xE0, v / 64 % 64 + 0x80, v % 64 + 0x80]
  else [v / 262144 + 0xF0, v / 4096 % 64 + 0x80, v / 64 % 64 + 0x80, v % 64 + 0x80]

theorem map_toNat_utf8EncodeChar (c : Char) :
    (String.utf8EncodeChar c).map UInt8.toNat = codes c.toNat := by
  have hv : c.toNat < 0xD800 ∨ 0xDFFF < c.toNat ∧ c.toNat < 0x110000 := c.valid
  unfold String.utf8EncodeChar codes
  simp only [show c.val.toNat = c.toNat from rfl]
  -- no sum is above 255, so that bytes hold them as they are
  split
  · simp only [List.map_cons, List.map_nil, UInt8.toNat_ofNat', List.cons.injEq, and_true]
    omega
  split
  · simp only [List.map_cons, List.map_nil, UInt8.toNat_ofNat', List.cons.injEq, and_true]
    omega
  split
  · simp only [List.map_cons, List.map_nil, UInt8.toNat_ofNat', List.cons.injEq, and_true]
    omega
  · simp only [List.map_cons, List.map_nil, UInt8.toNat_ofNat', List.cons.injEq, and_true]
    omega

theorem exists_utf8EncodeChar_iff_codes : (∃ c, String.utf8EncodeChar c = bs) ↔
    ∃ v, v.isValidChar ∧ bs.map UInt8.toNat = codes v := by
  constructor
  · intro h
    obtain ⟨c, rfl⟩ := h
    exact ⟨c.toNat, c.valid, map_toNat_utf8EncodeChar c⟩
  · intro h
    obtain ⟨v, hv, hbs⟩ := h
    refine ⟨Char.ofNatAux v hv, List.map_injective_iff.2 (fun _ _ => UInt8.toNat_inj.1) ?_⟩
    rw [map_toNat_utf8EncodeChar, hbs]
    rfl

theorem isSequence_of_codes (hv : v.isValidChar) (h : (b :: ts).map UInt8.toNat = codes v) :
    IsSequence b ts := by
  have hv : v < 0xD800 ∨ 0xDFFF < v ∧ v < 0x110000 := hv
  unfold codes at h
  split at h
  · obtain ⟨hb, hts⟩ := List.cons.inj h
    cases List.map_eq_nil_iff.1 hts
    exact Nat.le_trans (Nat.le_of_eq hb) ‹_›
  split at h
  · obtain ⟨hb, hts⟩ := List.cons.inj h
    obtain ⟨t, ts, rfl, ht, hts⟩ := List.map_eq_cons_iff.1 hts
    cases List.map_eq_nil_iff.1 hts
    unfold IsSequence IsTail
    omega
  split at h
  · obtain ⟨hb, hts⟩ := List.cons.inj h
    obtain ⟨t, ts, rfl, ht, hts⟩ := List.map_eq_cons_iff.1 hts
    obtain ⟨u, ts, rfl, hu, hts⟩ := List.map_eq_cons_iff.1 hts
    cases List.map_eq_nil_iff.1 hts
    unfold IsSequence IsTail
    omega
  · obtain ⟨hb, hts⟩ := List.cons.inj h
    obtain ⟨t, ts, rfl, ht, hts⟩ := List.map_eq_cons_iff.1 hts
    obtain ⟨u, ts, rfl, hu, hts⟩ := List.map_eq_cons_iff.1 hts
    obtain ⟨w, ts, rfl, hw, hts⟩ := List.map_eq_cons_iff.1 hts
    cases List.map_eq_nil_iff.1 hts
    unfold IsSequence IsTail
    omega

theorem exists_codes (h : IsSequence b ts) :
    ∃ v, v.isValidChar ∧ (b :: ts).map UInt8.toNat = codes v := by
  match ts, h with
  | [], h =>
      have h : b.toNat ≤ 0x7F := h
      refine ⟨b.toNat, Or.inl (by omega), ?_⟩
      unfold codes
      rw [if_pos h]
      rfl
  | [t], h =>
      obtain ⟨hb, hb', ht⟩ := h
      unfold IsTail at ht
      refine ⟨(b.toNat - 0xC0) * 64 + (t.toNat - 0x80), Or.inl (by omega), ?_⟩
      unfold codes
      rw [if_neg (by omega), if_pos (by omega)]
      simp only [List.map_cons, List.map_nil, List.cons.injEq, and_true]
      omega
  | [t, u], h =>
      obtain ⟨hb, hb', ht, hu, hlow, hhigh⟩ := h
      unfold IsTail at ht hu
      refine ⟨(b.toNat - 0xE0) * 4096 + (t.toNat - 0x80) * 64 + (u.toNat - 0x80), ?_, ?_⟩
      · unfold Nat.isValidChar
        omega
      · unfold codes
        rw [if_neg (by omega), if_neg (by omega), if_pos (by omega)]
        simp only [List.map_cons, List.map_nil, List.cons.injEq, and_true]
        omega
  | [t, u, w], h =>
      obtain ⟨hb, hb', ht, hu, hw, hlow, hhigh⟩ := h
      unfold IsTail at ht hu hw
      refine ⟨(b.toNat - 0xF0) * 262144 + (t.toNat - 0x80) * 4096 + (u.toNat - 0x80) * 64 +
        (w.toNat - 0x80), ?_, ?_⟩
      · unfold Nat.isValidChar
        omega
      · unfold codes
        rw [if_neg (by omega), if_neg (by omega), if_neg (by omega)]
        simp only [List.map_cons, List.map_nil, List.cons.injEq, and_true]
        omega

/-- Characters are encoded in the bytes that make up a character. -/
theorem exists_utf8EncodeChar_iff :
    (∃ c, String.utf8EncodeChar c = b :: ts) ↔ IsSequence b ts := by
  rw [exists_utf8EncodeChar_iff_codes]
  constructor
  · intro h
    obtain ⟨v, hv, hcodes⟩ := h
    exact isSequence_of_codes hv hcodes
  · exact exists_codes

-- ====================================================== all characters

/-- The bytes encode characters. -/
def Encodes (bs : List UInt8) (cs : List Char) : Prop := bs = cs.flatMap String.utf8EncodeChar

/-- Bytes encode characters if they begin with one and the rest encode
some. -/
theorem exists_encodes_cons_iff : (∃ cs, Encodes (b :: bs) cs) ↔
    ∃ ts rest, bs = ts ++ rest ∧ IsSequence b ts ∧ ∃ cs, Encodes rest cs := by
  unfold Encodes
  constructor
  · intro h
    obtain ⟨_ | ⟨c, cs⟩, hcs⟩ := h
    · cases hcs
    · rw [List.flatMap_cons] at hcs
      obtain ⟨b', ts, hc⟩ := List.exists_cons_of_ne_nil (String.utf8EncodeChar_ne_nil (c := c))
      rw [hc, List.cons_append] at hcs
      obtain ⟨rfl, rfl⟩ := List.cons.inj hcs
      exact ⟨ts, _, rfl, exists_utf8EncodeChar_iff.1 ⟨c, hc⟩, cs, rfl⟩
  · intro h
    obtain ⟨ts, rest, rfl, hsequence, cs, rfl⟩ := h
    obtain ⟨c, hc⟩ := exists_utf8EncodeChar_iff.2 hsequence
    refine ⟨c :: cs, ?_⟩
    rw [List.flatMap_cons, hc, List.cons_append]

/-- Bytes in the ranges owed are passed, and then the checks begin anew. -/
theorem firstFlaw?_owed : firstFlaw? owed bs = none ↔
    ∃ ts rest, bs = ts ++ rest ∧ List.Forall₂ Within ts owed ∧ firstFlaw? [] rest = none := by
  induction owed generalizing bs with
  | nil =>
      constructor
      · intro h
        exact ⟨[], bs, rfl, .nil, h⟩
      · intro h
        obtain ⟨ts, rest, rfl, hts, h⟩ := h
        cases hts
        exact h
  | cons range owed ih =>
      constructor
      · intro h
        cases bs with
        | nil => cases h
        | cons b bs =>
            rw [firstFlaw?] at h
            split at h
            · rename_i hb
              obtain ⟨ts, rest, rfl, hts, h⟩ := ih.1 h
              exact ⟨b :: ts, rest, rfl, .cons hb hts, h⟩
            · cases h
      · intro h
        obtain ⟨ts, rest, rfl, hts, h⟩ := h
        obtain _ | ⟨hb, hts⟩ := hts
        rw [List.cons_append, firstFlaw?]
        exact (if_pos hb).trans (ih.2 ⟨_, rest, rfl, hts, h⟩)

theorem firstFlaw?_cons : firstFlaw? [] (b :: bs) = none ↔
    ∃ ts rest, bs = ts ++ rest ∧ IsSequence b ts ∧ firstFlaw? [] rest = none := by
  rw [firstFlaw?]
  cases howed : continuations? b with
  | none =>
      refine iff_of_false (fun h => nomatch h) fun h => ?_
      obtain ⟨ts, rest, -, hsequence, -⟩ := h
      obtain ⟨owed, h, -⟩ := exists_owed hsequence
      rw [howed] at h
      cases h
  | some owed =>
      rw [firstFlaw?_owed]
      refine exists_congr fun ts => exists_congr fun rest => and_congr_right fun _ =>
        and_congr_left fun _ => ⟨isSequence_of_owed howed, fun hsequence => ?_⟩
      obtain ⟨owed', h, hts⟩ := exists_owed hsequence
      rw [howed] at h
      cases h
      exact hts

/-- There is a flaw in exactly the bytes that encode no characters. -/
theorem firstFlaw?_eq_none_iff (bs : List UInt8) :
    firstFlaw? [] bs = none ↔ ∃ cs, Encodes bs cs := by
  induction hn : bs.length using Nat.strongRecOn generalizing bs with
  | ind n ih =>
      cases bs with
      | nil => exact iff_of_true rfl ⟨[], rfl⟩
      | cons b bs =>
          rw [firstFlaw?_cons, exists_encodes_cons_iff]
          refine exists_congr fun ts => exists_congr fun rest => and_congr_right fun hbs =>
            and_congr_right fun _ => ih rest.length ?_ rest rfl
          rw [← hn, hbs, List.length_cons, List.length_append]
          omega

-- =========================================================== text files

variable {bytes : ByteArray} {flaw : Utf8Flaw}

theorem encodes_toUTF8 (text : String) : Encodes text.toUTF8.data.toList text.toList := by
  show text.toByteArray.data.toList = _
  rw [← String.utf8Encode_toList]
  exact List.toList_data_toByteArray

/-- A file without a flaw holds a text. -/
theorem firstFlaw?_data_eq_none_iff :
    firstFlaw? [] bytes.data.toList = none ↔ ∃ text : String, bytes = text.toUTF8 := by
  rw [firstFlaw?_eq_none_iff]
  constructor
  · intro h
    obtain ⟨cs, hcs⟩ := h
    refine ⟨.ofList cs, ByteArray.ext (Array.toList_inj.1 ?_)⟩
    rw [hcs, encodes_toUTF8, String.toList_ofList]
  · intro h
    obtain ⟨text, rfl⟩ := h
    exact ⟨_, encodes_toUTF8 text⟩

theorem ofBytes_toUTF8 (text : String) :
    ofBytes text.toUTF8 = .ok (uniformNewlines text.toList) := by
  have htext : String.fromUTF8? text.toUTF8 = some text := dif_pos text.isValidUTF8
  unfold ofBytes
  rw [htext]

theorem ofBytes_eq_error (h : firstFlaw? [] bytes.data.toList = some flaw) :
    ofBytes bytes = .error flaw := by
  have hnone : String.fromUTF8? bytes = none := by
    refine dif_neg fun hvalid => ?_
    have hsound : firstFlaw? [] bytes.data.toList = none :=
      firstFlaw?_data_eq_none_iff.2 ⟨.fromUTF8 bytes hvalid, rfl⟩
    rw [hsound] at h
    cases h
  unfold ofBytes
  rw [hnone, h]
  rfl

end Automata.Text
