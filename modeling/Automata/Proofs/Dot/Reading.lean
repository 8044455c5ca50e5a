/-
Reading DOT source: identifiers, the values of attributes, and the nodes
and edges that statements are about.

An identifier or a value is bare, a numeral, or stands in double quotes. A
bare one and a numeral stand for themselves. In quotes, a text ends at the
first quote that no backslash stands before; behind a backslash a quote
stands for itself, and so do all other characters everywhere. What opens
with an angle bracket is HTML, and no text. A node is named by an
identifier, and a colon behind it adds a port. Blanks may stand between.

Where the reading of a quoted text ends shows in what was written before
(`readQuoted?_escaped_append`). So a text in quotes is read back whatever
follows, with its line breaks as they are spelled there, if no backslash
ends it (`readValue?_inQuotes`). A backslash at the end takes the closing
quote for its own, and reading goes on behind it
(`readValue?_inQuotes_backslash`). A bare text is read back if what
follows cannot be part of it (`readValue?_bare`).
-/
import Mathlib.Data.List.TakeWhile
import Automata.Dot.Drawing
import Automata.Proofs.Joining
import Automata.Proofs.Text

namespace Automata.Dot

-- ============================================== identifiers and values

/-- What an identifier or a value stands for. -/
inductive Value where
  | text (cs : List Char)
  | html
  deriving DecidableEq

/-- Whether a character may begin a bare identifier. -/
def isBareStart (c : Char) : Bool := isNameStart c || decide (0x7F < c.toNat)

/-- Whether a character may stand in a bare identifier. -/
def isBareRest (c : Char) : Bool := isNameRest c || decide (0x7F < c.toNat)

/-- The text from behind an opening quote to the closing one, and what is
behind that. -/
def readQuoted? : List Char → Option (List Char × List Char)
  | [] => none
  | [c] => if c = Text.doubleQuote then some ([], []) else none
  | c :: d :: cs =>
    if c = Text.doubleQuote then some ([], d :: cs)
    else if c = '\\' ∧ d = Text.doubleQuote then (readQuoted? cs).map (Prod.map (d :: ·) id)
    else (readQuoted? (d :: cs)).map (Prod.map (c :: ·) id)

/-- The digits at the start, perhaps with a point among them or at an end,
and what is behind them. -/
def readUnsigned? (cs : List Char) : Option (List Char × List Char) :=
  let whole := cs.takeWhile Char.isDigit
  match cs.dropWhile Char.isDigit with
  | '.' :: rest =>
    let fraction := rest.takeWhile Char.isDigit
    if whole ++ fraction = [] then none
    else some (whole ++ '.' :: fraction, rest.dropWhile Char.isDigit)
  | rest => if whole = [] then none else some (whole, rest)

/-- The numeral at the start, and what is behind it. -/
def readNumeral? : List Char → Option (List Char × List Char)
  | '-' :: cs => (readUnsigned? cs).map (Prod.map ('-' :: ·) id)
  | cs => readUnsigned? cs

/-- The identifier or value at the start, and what is behind it; of HTML,
what is behind the bracket that opens it. A keyword is no identifier. -/
def readValue? : List Char → Option (Value × List Char)
  | [] => none
  | c :: cs =>
    if c = Text.doubleQuote then (readQuoted? cs).map (Prod.map .text id)
    else if c = '<' then some (.html, cs)
    else if isBareStart c then
      let word := c :: cs.takeWhile isBareRest
      if isKeyword word then none else some (.text word, cs.dropWhile isBareRest)
    else (readNumeral? (c :: cs)).map (Prod.map .text id)

-- ========================================================== statements

/-- What is behind the blanks at the start. -/
def skipBlanks (cs : List Char) : List Char :=
  cs.dropWhile fun c => [' ', '\t', '\n', '\r'].contains c

/-- What is behind a colon and an identifier, if there is a colon. -/
def skipPort? (cs : List Char) : Option (List Char) :=
  match skipBlanks cs with
  | ':' :: cs => (readValue? (skipBlanks cs)).map Prod.snd
  | cs => some cs

/-- What is behind a mark, which a port with another part may stand before. -/
def skipMark? (mark : String) (cs : List Char) : Option (List Char) := do
  let rest ← skipPort? (← skipPort? cs)
  (skipBlanks rest).dropPrefix? mark.toList

/-- The name of the node at the start, with a mark behind it, and what is
behind the mark. -/
def readNode? (mark : String) (cs : List Char) : Option (List Char × List Char) := do
  let (.text name, rest) ← readValue? (skipBlanks cs) | none
  return (name, ← skipMark? mark rest)

/-- The names of the nodes that an edge joins, and its attributes with what
is behind them. -/
def readEdge? (cs : List Char) : Option ((List Char × List Char) × List Char) := do
  let (source, rest) ← readNode? "->" cs
  let (target, rest) ← readNode? "[" rest
  return ((source, target), rest)

/-- The label of the edge at the start. -/
def readLabel? (cs : List Char) : Option Value := do
  let (_, rest) ← readEdge? cs
  let (value, _) ← readValue? (← rest.dropPrefix? "label=".toList)
  return value

variable {s t rest : List Char} {c : Char}

-- ========================================================== characters

theorem isBareStart_iff : isBareStart c = true ↔ 65 ≤ c.toNat ∧ c.toNat ≤ 90 ∨
    97 ≤ c.toNat ∧ c.toNat ≤ 122 ∨ c.toNat = 95 ∨ 127 < c.toNat := by
  unfold isBareStart isNameStart Char.isAlpha Char.isUpper Char.isLower
  simp only [Bool.or_eq_true, Bool.and_eq_true, decide_eq_true_eq, beq_iff_eq, ← Char.toNat_inj,
    or_assoc]
  exact Iff.rfl

theorem isBareRest_iff : isBareRest c = true ↔ isBareStart c = true ∨ c.isDigit = true := by
  unfold isBareRest isNameRest isBareStart isNameStart Char.isAlphanum
  simp only [Bool.or_eq_true]
  tauto

theorem isBareRest_of_isNameRest (h : isNameRest c = true) : isBareRest c = true :=
  Bool.or_eq_true_iff.2 (Or.inl h)

theorem isBareStart_ne (h : isBareStart c = true) : c ≠ Text.doubleQuote ∧ c ≠ '<' :=
  ⟨fun e => absurd (e ▸ h) (by decide), fun e => absurd (e ▸ h) (by decide)⟩

/-- The characters of a class may stand in a bare identifier if those of
them that are ASCII are letters and digits. -/
theorem isBareRest_of_contains {ranges : Text.CodeRanges}
    (h : ∀ r ∈ ranges, r ∈ [(48, 57), (65, 90), (97, 122)] ∨ 127 < r.1)
    (hc : ranges.contains c = true) : isBareRest c = true := by
  obtain ⟨r, hr, hc⟩ := List.any_eq_true.1 hc
  rw [Bool.and_eq_true, decide_eq_true_eq, decide_eq_true_eq] at hc
  rw [isBareRest_iff, isBareStart_iff, Text.asciiDigit_iff]
  rcases h r hr with hascii | hbeyond
  · simp only [List.mem_cons, List.not_mem_nil, or_false] at hascii
    rcases hascii with rfl | rfl | rfl <;> omega
  · omega

theorem isBareRest_of_isAlphanumeric (h : Text.isAlphanumeric c = true) : isBareRest c = true :=
  isBareRest_of_contains (by decide +kernel) h

theorem isBareRest_of_isDigit (h : Text.isDigit c = true) : isBareRest c = true :=
  isBareRest_of_contains (by decide +kernel) h

theorem isKeyword_eq_false (h : s.map Char.toLower ∉ keywords.map String.toList) :
    isKeyword s = false := by
  refine Bool.eq_false_iff.2 fun hkey => h ?_
  have hmem : String.ofList (s.map Char.toLower) ∈ keywords := List.contains_iff_mem.1 hkey
  have hmap := List.mem_map_of_mem (f := String.toList) hmem
  rwa [String.toList_ofList] at hmap

-- ========================================================= quoted texts

/-- The text with line breaks as they are spelled in quotes. -/
def spelled (s : List Char) : List Char :=
  s.flatMap fun c => if c = '\n' then ['\\', 'n'] else if c = '\r' then ['\\', 'r'] else [c]

/-- The text with a backslash before each quote. -/
def escaped (s : List Char) : List Char :=
  s.flatMap fun c => if c = Text.doubleQuote then ['\\', c] else [c]

theorem spelled_append (s t : List Char) : spelled (s ++ t) = spelled s ++ spelled t :=
  List.flatMap_append

theorem spelled_eq (hfeed : '\n' ∉ s) (hreturn : '\r' ∉ s) : spelled s = s := by
  refine (List.flatMap_congr fun c hc => ?_).trans (List.flatMap_singleton' s)
  have hcfeed : c ≠ '\n' := fun e => hfeed (e ▸ hc)
  have hcreturn : c ≠ '\r' := fun e => hreturn (e ▸ hc)
  rw [if_neg hcfeed, if_neg hcreturn]

theorem getLast?_spelled_ne (h : s.getLast? ≠ some '\\') : (spelled s).getLast? ≠ some '\\' := by
  rcases s.eq_nil_or_concat' with rfl | ⟨t, c, rfl⟩
  · exact h
  · rw [List.getLast?_concat] at h
    rw [spelled_append]
    show (spelled t ++ ((if c = '\n' then _ else _) ++ [])).getLast? ≠ _
    rw [List.append_nil]
    split_ifs
    · simp
    · simp
    · rwa [List.getLast?_concat]

theorem inQuotes_eq (s : List Char) :
    inQuotes s = Text.doubleQuote :: (escaped (spelled s) ++ [Text.doubleQuote]) := by
  unfold inQuotes escaped spelled
  refine congrArg (fun t => Text.doubleQuote :: (t ++ [Text.doubleQuote])) ?_
  rw [List.flatMap_assoc]
  refine List.flatMap_congr fun c _ => ?_
  by_cases hquote : c = Text.doubleQuote
  · rw [hquote]
    decide
  · rw [if_neg hquote]
    split_ifs
    · decide
    · decide
    · simp [hquote]

theorem readQuoted?_doubleQuote (rest : List Char) :
    readQuoted? (Text.doubleQuote :: rest) = some ([], rest) := by
  cases rest with
  | nil => rfl
  | cons d rest => exact if_pos rfl

theorem readQuoted?_backslash_doubleQuote (cs : List Char) :
    readQuoted? ('\\' :: Text.doubleQuote :: cs) =
      (readQuoted? cs).map (Prod.map (Text.doubleQuote :: ·) id) :=
  (if_neg (by decide)).trans (if_pos ⟨rfl, rfl⟩)

theorem readQuoted?_cons (hc : c ≠ Text.doubleQuote)
    (h : c = '\\' → rest.head? ≠ some Text.doubleQuote) :
    readQuoted? (c :: rest) = (readQuoted? rest).map (Prod.map (c :: ·) id) := by
  cases rest with
  | nil => exact if_neg hc
  | cons d rest =>
      refine (if_neg hc).trans (if_neg fun hesc => ?_)
      exact h hesc.1 (congrArg some hesc.2)

/-- No quote begins what quotes have been escaped in. -/
theorem head?_escaped_append_ne (h : s ≠ []) :
    (escaped s ++ rest).head? ≠ some Text.doubleQuote := by
  cases s with
  | nil => exact absurd rfl h
  | cons d s =>
      unfold escaped
      rw [List.flatMap_cons]
      split
      · exact fun hd => absurd (Option.some.inj hd) (by decide)
      · exact fun hd => absurd (Option.some.inj hd) ‹_›

/-- What has been escaped is read as it was, and reading goes on behind it,
unless a backslash at its end comes to stand before a quote. -/
theorem readQuoted?_escaped_append
    (h : s.getLast? = some '\\' → rest.head? ≠ some Text.doubleQuote) :
    readQuoted? (escaped s ++ rest) = (readQuoted? rest).map (Prod.map (s ++ ·) id) := by
  induction s with
  | nil =>
      show readQuoted? rest = (readQuoted? rest).map id
      rw [Option.map_id_fun, id]
  | cons c s ih =>
      have hs : s.getLast? = some '\\' → rest.head? ≠ some Text.doubleQuote := by
        intro hlast
        refine h ?_
        rw [List.getLast?_cons, hlast]
        rfl
      have hread := congrArg (Option.map (Prod.map (c :: ·) id)) (ih hs)
      rw [Option.map_map] at hread
      refine Eq.trans ?_ hread
      by_cases hc : c = Text.doubleQuote
      · have hcons : escaped (c :: s) = '\\' :: Text.doubleQuote :: escaped s := by
          unfold escaped
          rw [List.flatMap_cons, if_pos hc, hc]
          rfl
        rw [hcons, hc]
        exact readQuoted?_backslash_doubleQuote _
      · have hcons : escaped (c :: s) = c :: escaped s := by
          unfold escaped
          rw [List.flatMap_cons, if_neg hc]
          rfl
        rw [hcons]
        refine readQuoted?_cons hc fun hback => ?_
        -- what a backslash stands before is either escaped or behind the text
        cases s with
        | nil => exact h (congrArg some hback)
        | cons d s => exact head?_escaped_append_ne (List.cons_ne_nil d s)

theorem readValue?_doubleQuote (cs : List Char) :
    readValue? (Text.doubleQuote :: cs) = (readQuoted? cs).map (Prod.map .text id) := by
  unfold readValue?
  exact if_pos rfl

theorem readValue?_inQuotes (h : s.getLast? ≠ some '\\') (rest : List Char) :
    readValue? (inQuotes s ++ rest) = some (.text (spelled s), rest) := by
  rw [inQuotes_eq, List.cons_append, List.append_assoc, readValue?_doubleQuote,
    readQuoted?_escaped_append fun hback => absurd hback (getLast?_spelled_ne h),
    List.singleton_append, readQuoted?_doubleQuote]
  simp

/-- A backslash at the end of a text takes the closing quote for its own. -/
theorem readValue?_inQuotes_backslash (s rest : List Char) :
    readValue? (inQuotes (s ++ ['\\']) ++ rest) = (readQuoted? rest).map
      (Prod.map (fun u => .text (spelled s ++ Text.doubleQuote :: u)) id) := by
  have hescaped : escaped (spelled s ++ ['\\']) = escaped (spelled s) ++ ['\\'] :=
    List.flatMap_append
  have hhead : ('\\' :: Text.doubleQuote :: rest).head? ≠ some Text.doubleQuote :=
    fun e => absurd (Option.some.inj e) (by decide)
  rw [inQuotes_eq, spelled_append]
  show readValue? (Text.doubleQuote :: (escaped (spelled s ++ ['\\']) ++ [_]) ++ rest) = _
  rw [hescaped, List.cons_append, List.append_assoc, List.append_assoc, readValue?_doubleQuote]
  show (readQuoted? (escaped (spelled s) ++ '\\' :: Text.doubleQuote :: rest)).map _ = _
  rw [readQuoted?_escaped_append fun _ => hhead, readQuoted?_backslash_doubleQuote,
    Option.map_map, Option.map_map]
  rfl

/-- A text without line breaks is read back from its quotes just if no
backslash ends it. -/
theorem readValue?_inQuotes_iff (hfeed : '\n' ∉ s) (hreturn : '\r' ∉ s) :
    (∃ more, readValue? (inQuotes s ++ rest) = some (.text s, more)) ↔ s.getLast? ≠ some '\\' := by
  constructor
  · rintro ⟨more, hread⟩ hlast
    obtain ⟨t, rfl⟩ := List.getLast?_eq_some_iff.1 hlast
    rw [readValue?_inQuotes_backslash] at hread
    obtain ⟨⟨u, v⟩, -, hread⟩ := Option.map_eq_some_iff.1 hread
    have htext := Value.text.inj (congrArg Prod.fst hread)
    rw [spelled_eq (fun h => hfeed (List.mem_append_left _ h))
      fun h => hreturn (List.mem_append_left _ h)] at htext
    exact absurd (List.cons.inj (List.append_cancel_left htext)).1 (by decide)
  · intro hlast
    have hread := readValue?_inQuotes hlast rest
    rw [spelled_eq hfeed hreturn] at hread
    exact ⟨rest, hread⟩

/-- A quote stands before what is behind a quoted text. -/
theorem exists_of_readQuoted? {u v : List Char} (h : readQuoted? s = some (u, v)) :
    ∃ t, s = t ++ Text.doubleQuote :: v := by
  fun_induction readQuoted? s generalizing u with
  | case1 => cases h
  | case2 => exact ⟨[], by cases h; rfl⟩
  | case3 => cases h
  | case4 => exact ⟨[], by cases h; rfl⟩
  | case5 c d cs _ hesc ih =>
      obtain ⟨w, hw, he⟩ := Option.map_eq_some_iff.1 h
      cases he
      obtain ⟨t, rfl⟩ := ih hw
      exact ⟨c :: d :: t, rfl⟩
  | case6 c d cs _ _ ih =>
      obtain ⟨w, hw, he⟩ := Option.map_eq_some_iff.1 h
      cases he
      obtain ⟨t, ht⟩ := ih hw
      exact ⟨c :: t, by rw [ht]; rfl⟩

/-- Where a closing quote is looked for behind a text without quotes, less
is left than was behind this text. -/
theorem length_lt_of_readQuoted? {p u v : List Char} (hp : Text.doubleQuote ∉ p)
    (h : readQuoted? (p ++ rest) = some (u, v)) : v.length < rest.length := by
  obtain ⟨t, ht⟩ := exists_of_readQuoted? h
  rcases List.append_eq_append_iff.1 ht with ⟨a, -, rfl⟩ | ⟨a, hpa, hrest⟩
  · simp
    omega
  · cases a with
    | nil =>
        rw [List.nil_append] at hrest
        rw [← hrest]
        exact Nat.lt_succ_self _
    | cons c a =>
        obtain ⟨rfl, -⟩ := List.cons.inj hrest
        exact absurd (hpa ▸ List.mem_append_right t List.mem_cons_self) hp

-- =========================================================== bare texts

/-- A character that is no part of a bare text ends it. -/
theorem forall_head?_isBareRest (hc : isBareRest c = false) (rest : List Char) :
    ∀ d ∈ (c :: rest).head?, isBareRest d = false := by
  intro d hd
  cases hd
  exact hc

/-- What may follow a bare text is no part of it. -/
theorem span_bare (h : ∀ d ∈ s, isBareRest d = true)
    (hrest : ∀ d ∈ rest.head?, isBareRest d = false) :
    (s ++ rest).takeWhile isBareRest = s ∧ (s ++ rest).dropWhile isBareRest = rest := by
  rw [List.takeWhile_append_of_pos h, List.dropWhile_append_of_pos h]
  cases rest with
  | nil => exact ⟨List.append_nil s, rfl⟩
  | cons d rest =>
      have hd : ¬isBareRest d = true := by simpa using hrest d rfl
      rw [List.takeWhile_cons_of_neg hd, List.dropWhile_cons_of_neg hd]
      exact ⟨List.append_nil s, rfl⟩

theorem readValue?_bare (hc : isBareStart c = true) (hs : ∀ d ∈ s, isBareRest d = true)
    (hkey : isKeyword (c :: s) = false) (hrest : ∀ d ∈ rest.head?, isBareRest d = false) :
    readValue? (c :: s ++ rest) = some (.text (c :: s), rest) := by
  obtain ⟨hquote, hangle⟩ := isBareStart_ne hc
  obtain ⟨htake, hdrop⟩ := span_bare hs hrest
  rw [List.cons_append, readValue?, if_neg hquote, if_neg hangle, if_pos hc, htake, hdrop]
  exact if_neg (Bool.eq_false_iff.1 hkey)

/-- A digit is a numeral by itself, if neither a digit nor a point follows. -/
theorem readValue?_digit (hc : c.isDigit = true)
    (hrest : ∀ d ∈ rest.head?, d.isDigit = false ∧ d ≠ '.') :
    readValue? (c :: rest) = some (.text [c], rest) := by
  have hne : ∀ d : Char, d.isDigit = false → c ≠ d := by
    intro d hd e
    rw [e, hd] at hc
    cases hc
  have hstart : ¬isBareStart c = true := by
    rw [isBareStart_iff]
    have hbounds := Text.digit_bounds hc
    omega
  have hspan : (c :: rest).takeWhile Char.isDigit = [c] ∧
      (c :: rest).dropWhile Char.isDigit = rest := by
    rw [List.takeWhile_cons_of_pos hc, List.dropWhile_cons_of_pos hc]
    cases rest with
    | nil => exact ⟨rfl, rfl⟩
    | cons d rest =>
        have hd : ¬d.isDigit = true := by simpa using (hrest d rfl).1
        rw [List.takeWhile_cons_of_neg hd, List.dropWhile_cons_of_neg hd]
        exact ⟨rfl, rfl⟩
  have hnumeral : readNumeral? (c :: rest) = readUnsigned? (c :: rest) := by
    unfold readNumeral?
    split
    · exact absurd (List.cons.inj ‹_›).1 (hne _ (by decide))
    · rfl
  rw [readValue?, if_neg (hne _ (by decide)), if_neg (hne _ (by decide)), if_neg hstart, hnumeral,
    readUnsigned?, hspan.1, hspan.2]
  split
  · exact absurd rfl (hrest '.' rfl).2
  · rfl

-- ========================================================== what is left

theorem readUnsigned?_suffix {u : List Char} (h : readUnsigned? s = some (u, rest)) :
    rest <:+ s := by
  unfold readUnsigned? at h
  have hdigits : s.dropWhile Char.isDigit <:+ s := List.dropWhile_suffix _
  split at h
  · rename_i more hmore
    rw [hmore] at hdigits
    obtain ⟨-, h⟩ := Option.ite_none_left_eq_some.1 h
    cases h
    exact (List.dropWhile_suffix _).trans ((List.suffix_cons '.' more).trans hdigits)
  · obtain ⟨-, h⟩ := Option.ite_none_left_eq_some.1 h
    cases h
    exact hdigits

theorem readNumeral?_suffix {u : List Char} (h : readNumeral? s = some (u, rest)) : rest <:+ s := by
  unfold readNumeral? at h
  split at h
  · obtain ⟨⟨u, v⟩, hread, he⟩ := Option.map_eq_some_iff.1 h
    cases he
    exact (readUnsigned?_suffix hread).trans (List.suffix_cons _ _)
  · exact readUnsigned?_suffix h

theorem readValue?_suffix {v : Value} (h : readValue? s = some (v, rest)) : rest <:+ s := by
  cases s with
  | nil => cases h
  | cons c s =>
      rw [readValue?] at h
      split_ifs at h
      · obtain ⟨⟨u, more⟩, hread, he⟩ := Option.map_eq_some_iff.1 h
        cases he
        obtain ⟨t, rfl⟩ := exists_of_readQuoted? hread
        exact ⟨c :: t ++ [Text.doubleQuote], by simp⟩
      · cases h
        exact List.suffix_cons _ _
      · obtain ⟨-, h⟩ := Option.ite_none_left_eq_some.1 h
        cases h
        exact (List.dropWhile_suffix _).trans (List.suffix_cons _ _)
      · obtain ⟨⟨u, more⟩, hread, he⟩ := Option.map_eq_some_iff.1 h
        cases he
        exact readNumeral?_suffix hread

theorem skipBlanks_suffix (s : List Char) : skipBlanks s <:+ s := List.dropWhile_suffix _

theorem skipPort?_suffix (h : skipPort? s = some rest) : rest <:+ s := by
  have hblanks := skipBlanks_suffix s
  unfold skipPort? at h
  split at h
  · rename_i more hmore
    rw [hmore] at hblanks
    obtain ⟨⟨v, rest⟩, hread, rfl⟩ := Option.map_eq_some_iff.1 h
    refine (readValue?_suffix hread).trans ((skipBlanks_suffix more).trans ?_)
    exact (List.suffix_cons ':' more).trans hblanks
  · cases h
    exact hblanks

theorem skipMark?_suffix {mark : String} (h : skipMark? mark s = some rest) : rest <:+ s := by
  obtain ⟨more, hmore, h⟩ := Option.bind_eq_some_iff.1 h
  obtain ⟨more', hmore', h⟩ := Option.bind_eq_some_iff.1 h
  obtain ⟨p, hp, -⟩ := List.dropPrefix?_eq_some_iff.1 h
  have hrest : rest <:+ skipBlanks more' := ⟨p, hp.symm⟩
  exact hrest.trans <| (skipBlanks_suffix more').trans <|
    (skipPort?_suffix hmore').trans (skipPort?_suffix hmore)

-- =========================================================== statements

/-- What stands behind a node in a statement: attributes, or an arrow. -/
def marks : List String := ["[", "->"]

variable {mark : String}

theorem mark_cases (h : mark ∈ marks) : mark = "[" ∨ mark = "->" := by
  simpa [marks] using h

theorem skipMark?_mark (h : mark ∈ marks) (rest : List Char) :
    skipMark? mark (' ' :: (mark.toList ++ rest)) = some rest := by
  have hdrop := List.dropPrefix?_append_of_beq rest (beq_self_eq_true mark.toList)
  rcases mark_cases h with rfl | rfl
  · exact hdrop
  · exact hdrop

/-- A line feed before the mark is a blank. -/
theorem skipMark?_newline (mark : String) (s : List Char) :
    skipMark? mark ('\n' :: s) = skipMark? mark s := rfl

/-- A colon without a port behind it cannot be skipped. -/
theorem skipMark?_colon (h : mark ∈ marks) (rest : List Char) :
    skipMark? mark (':' :: ' ' :: (mark.toList ++ rest)) = none := by
  rcases mark_cases h with rfl | rfl
  · rfl
  · rfl

theorem skipMark?_doubleQuote (h : mark ∈ marks) (rest : List Char) :
    skipMark? mark (Text.doubleQuote :: rest) = none := by
  rcases mark_cases h with rfl | rfl
  · rfl
  · rfl

theorem doubleQuote_not_mem_mark (h : mark ∈ marks) : Text.doubleQuote ∉ ' ' :: mark.toList := by
  rcases mark_cases h with rfl | rfl
  · decide
  · decide

/-- Where a name has been read, the mark is looked for behind it. -/
theorem readNode?_eq {name : List Char} (h : readValue? (skipBlanks s) = some (.text name, rest)) :
    readNode? mark s = (skipMark? mark rest).map (Prod.mk name) := by
  unfold readNode?
  rw [h]
  show (skipMark? mark rest).bind (fun more => some (name, more)) = _
  rw [Option.map_eq_bind]
  rfl

/-- An attribute as it is written. -/
def assignment (a : String × List Char) : List Char := a.1.toList ++ '=' :: a.2

/-- Attributes as they are written, behind the bracket that opens them. -/
def bracketed (attributes : List (String × List Char)) : List Char :=
  ", ".toList.intercalate (attributes.map assignment) ++ "];".toList

/-- What stands behind the first value among attributes. -/
def closing (more : List (String × List Char)) : List Char :=
  (more.map assignment).flatMap (", ".toList ++ ·) ++ "];".toList

theorem bracketed_cons (key : String) (value : List Char) (more : List (String × List Char)) :
    bracketed ((key, value) :: more) = key.toList ++ '=' :: (value ++ closing more) := by
  unfold bracketed closing
  rw [List.map_cons, Text.intercalate_cons]
  simp [assignment]

theorem toList_statement (subject : List Char) (attributes : List (String × List Char)) :
    (statement subject attributes).toList =
      subject ++ ' ' :: ("[".toList ++ bracketed attributes) := by
  have hmap : (attributes.map fun a => a.1 ++ "=" ++ .ofList a.2).map String.toList =
      attributes.map assignment := by
    rw [List.map_map]
    refine List.map_congr_left fun a _ => ?_
    show (a.1 ++ "=" ++ .ofList a.2).toList = _
    rw [String.toList_append, String.toList_append, String.toList_ofList]
    simp [assignment]
  unfold statement bracketed
  simp only [String.toList_append, String.toList_ofList, String.toList_intercalate]
  rw [hmap]
  simp

/-- The statement of an edge, in the order in which it is read. -/
theorem toList_statement_arrow (source target : List Char)
    (attributes : List (String × List Char)) :
    (statement (arrow source target) attributes).toList =
      edgeEnd source ++ ' ' :: ("->".toList ++
        ' ' :: (edgeEnd target ++ ' ' :: ("[".toList ++ bracketed attributes))) := by
  rw [toList_statement, arrow]
  simp only [List.append_assoc]
  rfl

end Automata.Dot
