/-
Trees of files are lawful disks.

A path leads from directory to directory, and a write makes no directory
and takes none away. So in trees with the same directories the same paths
lead to the same places (`locate_congr`), and a write leaves all of them
where they were. It puts bytes down in one place only, and if it does not
fail these are the bytes that it was given (`lawful`).
-/
import Automata.Proofs.Disks

namespace Automata.FileTree

variable {t u : FileTree} {p q : Place} {bytes : ByteArray} {path : Path}

-- ==================================================== where paths lead

theorem isDirectory_congr (h : u.directories = t.directories) (p : Place) :
    u.isDirectory p = t.isDirectory p := by
  unfold isDirectory
  rw [h]

theorem follow_congr (h : u.directories = t.directories) (here : Place) (names : List String) :
    u.follow here names = .ok q ↔ t.follow here names = .ok q := by
  induction names generalizing here with
  | nil => exact Iff.rfl
  | cons name rest ih =>
      simp only [follow, isDirectory_congr h]
      by_cases hdir : t.isDirectory here
      · rw [if_pos hdir, if_pos hdir]
        by_cases hlong : Path.isLongName name
        · rw [if_pos hlong, if_pos hlong]
        · rw [if_neg hlong, if_neg hlong]
          exact ih _
      · -- which fault it is depends on the files
        rw [if_neg hdir, if_neg hdir]
        refine iff_of_false ?_ ?_ <;> split <;> exact fun h => nomatch h

theorem locate_eq_ok_iff {path : Path} :
    t.locate path = .ok q ↔ path.isLong = false ∧
      t.follow (if path.root = "" then [] else ["/"]) path.components = .ok q ∧
      t.isDirectory q = false := by
  unfold locate
  cases path.isLong with
  | true => exact iff_of_false (fun h => nomatch h) fun h => nomatch h.1
  | false =>
      rw [if_neg Bool.false_ne_true]
      cases t.follow (if path.root = "" then [] else ["/"]) path.components with
      | error cause => exact iff_of_false (fun h => nomatch h) fun h => nomatch h.2.1
      | ok p =>
          simp only [Except.ok.injEq, true_and]
          cases hdir : t.isDirectory p with
          | true =>
              refine iff_of_false (fun h => nomatch h) fun h => ?_
              rw [← h.1, hdir] at h
              exact nomatch h.2
          | false =>
              rw [if_neg Bool.false_ne_true, Except.ok.injEq, iff_self_and]
              rintro rfl
              exact hdir

/-- Trees with the same directories have their files in the same places. -/
theorem locate_congr (h : u.directories = t.directories) (path : Path) :
    u.locate path = .ok q ↔ t.locate path = .ok q := by
  simp only [locate_eq_ok_iff, follow_congr h, isDirectory_congr h]

-- ================================================================ laws

@[simp] theorem directories_put : (t.put p bytes).directories = t.directories := rfl

/-- Looks up files in the tree. -/
def view : Disk.View FileTree Place where
  place? t path := (t.locate path).toOption
  contents? := contents?

theorem place?_eq_some_iff : view.place? t path = some p ↔ t.locate path = .ok p := by
  show (t.locate path).toOption = some p ↔ _
  cases t.locate path <;> simp [Except.toOption]

theorem place?_congr (h : u.directories = t.directories) (path : Path) :
    view.place? u path = view.place? t path :=
  Option.ext fun p => by rw [place?_eq_some_iff, place?_eq_some_iff, locate_congr h]

theorem read_eq_ok_iff :
    t.read path = .ok bytes ↔ ∃ p, t.locate path = .ok p ∧ t.contents? p = some bytes := by
  unfold read
  cases t.locate path with
  | error f => simp
  | ok p => cases h : t.contents? p <;> simp [h]

theorem run_write (t : FileTree) (path : Path) (bytes : ByteArray) :
    (disk.write path bytes).run t = t.write path bytes := rfl

/-- A tree does to its files what it is asked to, or reports a fault. -/
theorem lawful : disk.Lawful view where
  read_snd := fun _ _ => rfl
  read_fst := by
    intro t path bytes hread
    obtain ⟨p, hp, hcontents⟩ := read_eq_ok_iff.1 hread
    exact ⟨p, place?_eq_some_iff.2 hp, hcontents⟩
  write_fst := by
    intro t path bytes hok
    rw [run_write] at hok ⊢
    rcases t.write_cases path bytes with ⟨f, hwrite⟩ | ⟨p, result, kept, hp, hwrite, hkept⟩
    · rw [hwrite] at hok
      cases hok
    · rw [hwrite] at hok ⊢
      refine ⟨p, place?_eq_some_iff.2 hp, ?_⟩
      rw [← hkept hok]
      exact (contents?_put t p p kept).trans (if_pos rfl)
  place?_write := by
    intro t path bytes other
    rw [run_write]
    rcases t.write_cases path bytes with ⟨f, hwrite⟩ | ⟨p, result, kept, -, hwrite, -⟩
    · rw [hwrite]
    · rw [hwrite]
      exact place?_congr directories_put other
  contents?_write := by
    intro t path bytes q hq
    rw [run_write]
    rcases t.write_cases path bytes with ⟨f, hwrite⟩ | ⟨p, result, kept, hp, hwrite, -⟩
    · rw [hwrite]
    · rw [hwrite]
      refine (contents?_put t p q kept).trans (if_neg ?_)
      rintro rfl
      exact hq (place?_eq_some_iff.2 hp)

/-- A file is written if its place is not protected and the disk holds it. -/
theorem write_eq_ok_iff : t.write path bytes = (.ok (), u) ↔ ∃ p, t.locate path = .ok p ∧
    t.isLocked p = false ∧ (∀ n, t.spaceAt? p = some n → bytes.size ≤ n) ∧
      t.put p bytes = u := by
  unfold write
  cases t.locate path with
  | error f => simp
  | ok p =>
    cases hlocked : t.isLocked p with
    | true => simp [hlocked]
    | false =>
      unfold fit
      cases hspace : t.spaceAt? p with
      | none => simp [hlocked, hspace, Except.mapError]
      | some n =>
        by_cases hn : n < bytes.size
        · simp [hlocked, hspace, hn, Except.mapError]
        · simp [hlocked, hspace, hn, Except.mapError, Nat.not_lt.1 hn]

end Automata.FileTree
