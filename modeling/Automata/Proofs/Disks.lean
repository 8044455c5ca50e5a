/-
What can be said of any disk, and of reading and saving on one.

A disk carries a state along. Where paths lead in a state and what is
there is looked up in a `View` of it, and a disk is `Lawful` if it does to
this what it is asked to or reports a fault: reading changes nothing, what
is written without a fault is there afterwards, and a write never touches
another file, whether or not it fails. When operations fail is up to the
disk, and so is what a write that fails leaves at the place that it was
for.

# Reading an automaton

Reading leaves the disk as it is. It gives an automaton, or a fault of a
kind that can be shown to whoever asked for the file, or else the file
spells more states than can be counted out (`listed_cases`).
-/
import Automata.Files.Disk
import Automata.Proofs.Listing.Reading

namespace Automata

/-- Whether a fault lies with the file: it is not there to be read, or what
it holds is no listing. -/
def DiskFault.OfFile : DiskFault → Prop
  | file _ => True
  | listing (.format _) => True
  | _ => False

namespace Disk

variable {σ π : Type}

-- ================================================================ views

/-- How the files of a disk are looked at: the place that a path leads to,
and the contents of the file there, if there is one. -/
structure View (σ π : Type) where
  place? : σ → Path → Option π
  contents? : σ → π → Option ByteArray

namespace View

variable {view : View σ π} {s t u : σ} {path other text : String}

/-- Whether two paths lead to one place. -/
def SameFile (view : View σ π) (s : σ) (path other : String) : Prop :=
  ∃ p, view.place? s (.ofString path) = some p ∧ view.place? s (.ofString other) = some p

/-- Whether the file that a path names holds a text, and nothing else. -/
def Holds (view : View σ π) (s : σ) (path text : String) : Prop :=
  ∃ p, view.place? s (.ofString path) = some p ∧ view.contents? s p = some text.toUTF8

/-- Whether paths lead where they led, and all is as before but where some
paths lead to. -/
structure SameBut (view : View σ π) (s t : σ) (paths : List String) : Prop where
  place : ∀ path, view.place? t path = view.place? s path
  contents : ∀ p, (∀ path ∈ paths, view.place? s (.ofString path) ≠ some p) →
    view.contents? t p = view.contents? s p

theorem SameBut.trans {paths others : List String} (h : view.SameBut s t paths)
    (h' : view.SameBut t u others) : view.SameBut s u (paths ++ others) := by
  refine ⟨fun path => (h'.place path).trans (h.place path), fun p hp => ?_⟩
  rw [h'.contents p, h.contents p]
  · exact fun path hpath => hp path (List.mem_append_left others hpath)
  · intro path hpath
    rw [h.place]
    exact hp path (List.mem_append_right paths hpath)

theorem SameBut.mono {paths others : List String} (h : view.SameBut s t paths)
    (hsub : ∀ path ∈ paths, path ∈ others) : view.SameBut s t others :=
  ⟨h.place, fun p hp => h.contents p fun path hpath => hp path (hsub path hpath)⟩

theorem SameBut.sameFile_iff {paths : List String} (h : view.SameBut s t paths) :
    view.SameFile t path other ↔ view.SameFile s path other := by
  unfold SameFile
  rw [h.place, h.place]

/-- A file keeps what it holds if others only are touched. -/
theorem Holds.of_sameBut (hold : view.Holds s path text) (h : view.SameBut s t [other])
    (hother : ¬view.SameFile s path other) : view.Holds t path text := by
  obtain ⟨p, hp, hcontents⟩ := hold
  refine ⟨p, (h.place _).trans hp, ?_⟩
  rw [h.contents p, hcontents]
  refine List.forall_mem_singleton.2 fun hq => hother ⟨p, hp, hq⟩

end View

-- ================================================================= laws

/-- The disk does to its files what it is asked to, or reports a fault. -/
structure Lawful (disk : Disk (StateM σ)) (view : View σ π) : Prop where
  /-- Reading changes nothing. -/
  read_snd : ∀ s path, ((disk.read path).run s).2 = s
  /-- What is read is what is there. -/
  read_fst : ∀ s path bytes, ((disk.read path).run s).1 = .ok bytes →
    ∃ p, view.place? s path = some p ∧ view.contents? s p = some bytes
  /-- What is written without a fault is there. -/
  write_fst : ∀ s path bytes, ((disk.write path bytes).run s).1 = .ok () →
    ∃ p, view.place? s path = some p ∧
      view.contents? ((disk.write path bytes).run s).2 p = some bytes
  /-- A write changes no way to a file, whether or not it fails. -/
  place?_write : ∀ s path bytes other,
    view.place? ((disk.write path bytes).run s).2 other = view.place? s other
  /-- A write changes no file but the one of the path, whether or not it
  fails. -/
  contents?_write : ∀ s path bytes p, view.place? s path ≠ some p →
    view.contents? ((disk.write path bytes).run s).2 p = view.contents? s p

/-- What comes of writing a text to a file, and the disk afterwards. -/
def put (disk : Disk (StateM σ)) (path text : String) (s : σ) : Except FileFault Unit × σ :=
  (disk.write (.ofString path) text.toUTF8).run s

variable {disk : Disk (StateM σ)} {view : View σ π} {s t : σ} {path text : String}
  {bytes : ByteArray} {room : Nat}

namespace Lawful

theorem sameBut_put (h : disk.Lawful view) (s : σ) (path text : String) :
    view.SameBut s (disk.put path text s).2 [path] where
  place := h.place?_write s _ _
  contents := fun p hp => h.contents?_write s _ _ p (hp path (List.mem_singleton_self path))

theorem holds_put (h : disk.Lawful view) (hput : disk.put path text s = (.ok (), t)) :
    view.Holds t path text := by
  obtain ⟨p, hp, hcontents⟩ := h.write_fst s (.ofString path) text.toUTF8 (congrArg Prod.fst hput)
  have hsame := h.sameBut_put s path text
  rw [hput] at hsame
  refine ⟨p, (hsame.place _).trans hp, ?_⟩
  rw [← hcontents]
  exact congrArg (fun u => view.contents? u p) (congrArg Prod.snd hput).symm

/-- Whoever reads a file gets what it holds. -/
theorem eq_of_holds (h : disk.Lawful view) (hold : view.Holds s path text)
    (hread : ((disk.read (.ofString path)).run s).1 = .ok bytes) : bytes = text.toUTF8 := by
  obtain ⟨p, hp, hcontents⟩ := hold
  obtain ⟨q, hq, hbytes⟩ := h.read_fst s _ bytes hread
  rw [hp, Option.some.injEq] at hq
  subst hq
  exact Option.some.inj (hbytes.symm.trans hcontents)

end Lawful

-- =============================================================== saving

theorem ofString?_eq_some (h : '\x00' ∉ path.toList) :
    Path.ofString? path = some (.ofString path) := if_neg h

/-- A text is saved by writing it. -/
theorem run_save (disk : Disk (StateM σ)) (hpath : '\x00' ∉ path.toList) (s : σ) :
    (disk.save path (.ok text)).run s =
      pure ((disk.put path text s).1.mapError .file, (disk.put path text s).2) := by
  unfold save
  rw [ofString?_eq_some hpath]
  rfl

-- ============================================================== reading

/-- The automaton that a file lists, or why it lists none. -/
def listed (disk : Disk (StateM σ)) (room : Nat) (s : σ) (path : String) :
    Except DiskFault Automaton :=
  ((disk.load room path).run s).1

/-- Whether a file spells a listing whose states cannot be counted out. -/
def Exceeds (disk : Disk (StateM σ)) (room : Nat) (s : σ) (path : String) : Prop :=
  ∃ bytes cs l, ((disk.read (.ofString path)).run s).1 = .ok bytes ∧ Text.ofBytes bytes = .ok cs ∧
    Listing.Spells (Text.lines cs) l ∧ l.Coherent ∧ ¬Listing.Fits room l.count

/-- Reading does nothing to the disk. -/
theorem Lawful.run_load (h : disk.Lawful view) (room : Nat) (s : σ) (path : String) :
    (disk.load room path).run s = pure (disk.listed room s path, s) := by
  unfold listed load
  cases Path.ofString? path with
  | none => rfl
  | some p =>
    have hs := h.read_snd s p
    simp only [StateT.run_bind]
    cases hread : (disk.read p).run s with
    | mk r u =>
      rw [hread] at hs
      subst hs
      cases r <;> rfl

-- the three ways that reading goes: no file, no text, or lines

theorem listed_eq (hpath : '\x00' ∉ path.toList) :
    disk.listed room s path = match ((disk.read (.ofString path)).run s).1 with
      | .error f => .error (.file f)
      | .ok bytes => (Listing.readBytes room path bytes).mapError .listing := by
  unfold listed load
  rw [ofString?_eq_some hpath]
  simp only [StateT.run_bind]
  cases (disk.read (.ofString path)).run s with
  | mk r u => cases r <;> rfl

theorem listed_of_error {f : FileFault} (hpath : '\x00' ∉ path.toList)
    (hread : ((disk.read (.ofString path)).run s).1 = .error f) :
    disk.listed room s path = .error (.file f) := by
  rw [listed_eq hpath, hread]

theorem listed_of_flaw {flaw : Text.Utf8Flaw} (hpath : '\x00' ∉ path.toList)
    (hread : ((disk.read (.ofString path)).run s).1 = .ok bytes)
    (htext : Text.ofBytes bytes = .error flaw) :
    disk.listed room s path = .error (.listing (.format ⟨.notText path flaw, none⟩)) := by
  have hbytes : Listing.readBytes room path bytes =
      .error (.format ⟨.notText path flaw, none⟩) := by
    unfold Listing.readBytes
    rw [htext]
  rw [listed_eq hpath, hread]
  exact congrArg (Except.mapError _) hbytes

theorem listed_of_text {cs : List Char} (hpath : '\x00' ∉ path.toList)
    (hread : ((disk.read (.ofString path)).run s).1 = .ok bytes)
    (htext : Text.ofBytes bytes = .ok cs) :
    disk.listed room s path = (Listing.readLines room (Text.lines cs)).mapError .listing := by
  have hbytes : Listing.readBytes room path bytes = Listing.readLines room (Text.lines cs) := by
    unfold Listing.readBytes
    rw [htext]
  rw [listed_eq hpath, hread, ← hbytes]

theorem listed_eq_ok_iff (hpath : '\x00' ∉ path.toList) {A : Automaton} :
    disk.listed room s path = .ok A ↔
      ∃ bytes cs, ((disk.read (.ofString path)).run s).1 = .ok bytes ∧
        Text.ofBytes bytes = .ok cs ∧ Listing.readLines room (Text.lines cs) = .ok A := by
  cases hread : ((disk.read (.ofString path)).run s).1 with
  | error f =>
    rw [listed_of_error hpath hread]
    simp
  | ok bytes =>
    cases htext : Text.ofBytes bytes with
    | error flaw =>
      rw [listed_of_flaw hpath hread htext]
      simp [htext]
    | ok cs =>
      rw [listed_of_text hpath hread htext]
      cases hA : Listing.readLines room (Text.lines cs) <;> simp [htext, hA, Except.mapError]

/-- That states cannot be counted out does not lie with the file. -/
theorem not_ofFile_excess (n : Nat) : ¬(DiskFault.listing (Listing.excess n)).OfFile := by
  unfold Listing.excess
  split <;> exact fun h => h

theorem Exceeds.exists_listed (hpath : '\x00' ∉ path.toList) (h : disk.Exceeds room s path) :
    ∃ n, disk.listed room s path = .error (.listing (Listing.excess n)) := by
  obtain ⟨bytes, cs, l, hread, htext, hspells, hcoherent, hexcess⟩ := h
  refine ⟨l.count, ?_⟩
  rw [listed_of_text hpath hread htext, Listing.readLines_eq_excess hspells hcoherent hexcess]
  rfl

/-- A file lists an automaton, or there is a fault that lies with it, or
it spells states that cannot be counted out. -/
theorem listed_cases (disk : Disk (StateM σ)) (room : Nat) (s : σ)
    (hpath : '\x00' ∉ path.toList) :
    (∃ A, disk.listed room s path = .ok A) ∨
      (∃ f, disk.listed room s path = .error f ∧ f.OfFile) ∨ disk.Exceeds room s path := by
  cases hread : ((disk.read (.ofString path)).run s).1 with
  | error f => exact Or.inr (Or.inl ⟨_, listed_of_error hpath hread, trivial⟩)
  | ok bytes =>
    cases htext : Text.ofBytes bytes with
    | error flaw => exact Or.inr (Or.inl ⟨_, listed_of_flaw hpath hread htext, trivial⟩)
    | ok cs =>
      rw [listed_of_text hpath hread htext]
      by_cases hok : ∃ A, Listing.readLines room (Text.lines cs) = .ok A
      · obtain ⟨A, hA⟩ := hok
        refine Or.inl ⟨A, ?_⟩
        rw [hA]
        rfl
      · rcases Listing.exists_error hok with ⟨e, he⟩ | ⟨l, hspells, hcoherent, hexcess⟩
        · refine Or.inr (Or.inl ⟨.listing (.format e), ?_, trivial⟩)
          rw [he]
          rfl
        · exact Or.inr (Or.inr ⟨bytes, cs, l, hread, htext, hspells, hcoherent, hexcess⟩)

end Disk

end Automata
