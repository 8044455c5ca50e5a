/-
What a run of the command does to the files, for all options and all
lawful disks.

A run takes up to three steps that can fail. It reads the input, it
writes the report, and if asked to it writes the drawing. Nothing between
the steps can fail: an automaton that was read can be minimized, and what
comes of that has numbers for states, none of which has too many digits,
so it can be put into all three forms (`exists_printout`). How a run ends
is therefore settled by what the input lists and by how the writes go
(`Writes`). There is one lemma for each way to end, and the result tells
the ways apart (`Ended`).

# The contract

A run stops at the first step that fails, with exit code 1, nothing
printed, and just the files of the steps so far touched. It succeeds when
no step fails, and then the files hold what was made of the input as it
was at the start, even if one of them was the input (`run_contract`). Why
a write fails plays no part, nor does what it leaves in its file.

States that cannot be counted out are the exception, as they are for
texts. A run on a file with so many is cut off, which leaves the files
alone but is no way to end (`run_countOverflow`).
-/
import Automata.CommandLine.Run
import Automata.Proofs.Drawings
import Automata.Proofs.Files

namespace Automata

-- ========================================================== printouts

/-- The forms in which an automaton is given out: the report for a file,
the source of the drawing, and the report for a console. -/
structure Automaton.Printout (M : Automaton) where
  report : String
  source : String
  shown : String
  report_eq : M.fileReport = .ok report
  source_eq : (M.drawing.map fun d => d.source Dot.defaultBackground) = .ok source
  shown_eq : M.consoleReport Automaton.defaultTitle = .ok shown

/-- What can be put in order and written is given out in all forms. -/
theorem Automaton.exists_printout {M : Automaton}
    (hcomparable : Symbol.Comparable M.states.toList) (h : M.Writable) : Nonempty M.Printout :=
  ⟨⟨_, _, _, fileReport_eq_ok hcomparable h, congrArg (Except.map _) (drawing_eq_ok hcomparable h),
    consoleReport_eq_ok hcomparable h defaultTitle⟩⟩

namespace CommandLine

variable {σ π : Type} {disk : Disk (StateM σ)} {view : Disk.View σ π} {room : Nat} {o : Options}
  {s t u v : σ} {A M : Automaton} {path : String} {result : Except CutOff Outcome} {code : Nat}
  {printed : String}

-- ============================================================ results

/-- Whether a run ended with an exit code and printed a text. -/
def Shows (result : Except CutOff Outcome) (code : Nat) (printed : String) : Prop :=
  ∃ x, result = .ok x ∧ x.exitCode = code ∧ x.printed = printed

theorem shows_failed (log : List Message) (text : String) : Shows (.ok (failed log text)) 1 "" :=
  ⟨_, rfl, rfl, rfl⟩

theorem Shows.ne_error (h : Shows result code printed) (c : CutOff) : result ≠ .error c := by
  obtain ⟨x, rfl, -, -⟩ := h
  exact fun hx => nomatch hx

theorem Shows.exitCode_eq (h : Shows result code printed) {x : Outcome} (hx : result = .ok x) :
    x.exitCode = code := by
  obtain ⟨y, hy, hcode, -⟩ := h
  rw [hx, Except.ok.injEq] at hy
  rw [hy, hcode]

theorem Shows.code_eq (h : Shows result code printed) {code' : Nat} {printed' : String}
    (h' : Shows result code' printed') : code = code' := by
  obtain ⟨x, hx, hcode, -⟩ := h
  rw [← hcode, h'.exitCode_eq hx]

theorem exists_shows_iff :
    (∃ printed, Shows result code printed) ↔ result.map Outcome.exitCode = .ok code := by
  constructor
  · rintro ⟨printed, x, rfl, rfl, -⟩
    rfl
  · cases result with
    | error c => exact fun h => nomatch h
    | ok x => exact fun h => ⟨_, x, rfl, Except.ok.inj h, rfl⟩

/-- The level of the log bears on the log only. -/
theorem Shows.atLevel (h : Shows result code printed) (level : Level) :
    Shows (result.map (Outcome.atLevel level)) code printed := by
  obtain ⟨x, rfl, hcode, hprinted⟩ := h
  exact ⟨x.atLevel level, rfl, hcode, hprinted⟩

/-- What a run on a disk comes to: its result, and the disk after it. -/
def runOn (disk : Disk (StateM σ)) (room : Nat) (o : Options) (s : σ) :
    Except CutOff Outcome × σ :=
  (run disk room o).run s

/-- The paths of the files that a run is to write. -/
def Options.targets (o : Options) : List String :=
  o.output :: match o.dot with
    | .file path => [path]
    | _ => []

/-- Options that are complete, that name paths, and that name two
different files if two are to be written. -/
structure Options.Proper (o : Options) (view : Disk.View σ π) (s : σ) : Prop where
  level : o.level?.isSome
  dot : o.dot ≠ .unnamed
  input : '\x00' ∉ o.input.toList
  targets : ∀ path ∈ o.targets, '\x00' ∉ path.toList
  apart : ∀ path, o.dot = .file path → ¬view.SameFile s o.output path

theorem Options.targets_of_nowhere (h : o.dot = .nowhere) : o.targets = [o.output] := by
  unfold targets
  rw [h]

theorem Options.targets_of_file (h : o.dot = .file path) : o.targets = [o.output, path] := by
  unfold targets
  rw [h]

theorem Options.mem_targets_iff : path ∈ o.targets ↔ path = o.output ∨ o.dot = .file path := by
  unfold targets
  cases o.dot <;> simp [eq_comm]

theorem Options.Proper.output (ho : o.Proper view s) : '\x00' ∉ o.output.toList :=
  ho.targets _ (mem_targets_iff.2 (Or.inl rfl))

theorem Options.Proper.drawing (ho : o.Proper view s) (h : o.dot = .file path) :
    '\x00' ∉ path.toList :=
  ho.targets _ (mem_targets_iff.2 (Or.inr h))

-- ====================================================== steps of a run

/-- How far a run gets with its writes. -/
inductive Stage where
  | unwritten
  | undrawn
  | written

/-- The exit code of a run that gets so far. -/
def Stage.exitCode : Stage → Nat
  | written => 0
  | _ => 1

/-- What a run prints that gets so far. -/
def Options.shows (o : Options) (w : M.Printout) : Stage → String
  | .written => if o.quiet then "" else w.shown ++ "\n"
  | _ => ""

/-- How the writes of a run go and what they make of the disk: they end at
the report, or at the drawing, or when all files are written. -/
inductive Writes (disk : Disk (StateM σ)) (o : Options) (w : M.Printout) (s : σ) :
    Stage → σ → Prop
  | unwritten {f : FileFault} {s' : σ} (report : disk.put o.output w.report s = (.error f, s')) :
    Writes disk o w s .unwritten s'
  | undrawn {f : FileFault} {s' s'' : σ} {file : String}
    (report : disk.put o.output w.report s = (.ok (), s')) (dot : o.dot = .file file)
    (drawing : disk.put file w.source s' = (.error f, s'')) : Writes disk o w s .undrawn s''
  | report {s' : σ} (report : disk.put o.output w.report s = (.ok (), s'))
    (dot : o.dot = .nowhere) : Writes disk o w s .written s'
  | both {s' s'' : σ} {file : String} (report : disk.put o.output w.report s = (.ok (), s'))
    (dot : o.dot = .file file) (drawing : disk.put file w.source s' = (.ok (), s'')) :
    Writes disk o w s .written s''

/-- The writes of a run go in one of these ways. -/
theorem exists_writes (disk : Disk (StateM σ)) (hdot : o.dot ≠ .unnamed) (w : M.Printout)
    (s : σ) : ∃ stage t, Writes disk o w s stage t := by
  cases h : disk.put o.output w.report s with
  | mk r t =>
    cases r with
    | error f => exact ⟨_, _, .unwritten h⟩
    | ok _ =>
      cases hdot' : o.dot with
      | unnamed => exact absurd hdot' hdot
      | nowhere => exact ⟨_, _, .report h hdot'⟩
      | file path =>
        cases hdraw : disk.put path w.source t with
        | mk r u =>
          cases r with
          | error f => exact ⟨_, _, .undrawn h hdot' hdraw⟩
          | ok _ => exact ⟨_, _, .both h hdot' hdraw⟩

theorem shows_finish (o : Options) (w : M.Printout) (log : List Message) :
    Shows (finish o M log) 0 (o.shows w .written) := by
  unfold finish Options.shows
  rw [w.shown_eq]
  split
  · exact ⟨_, rfl, rfl, rfl⟩
  · exact ⟨_, rfl, rfl, rfl⟩

/-- The drawing is written, or the run fails. -/
theorem run_draw (hdot : o.dot = .file path) (hpath : '\x00' ∉ path.toList) (w : M.Printout)
    (log : List Message) (t : σ) :
    (draw disk o M log).run t = pure (match (disk.put path w.source t).1 with
      | .ok () => finish o M log
      | .error f => .ok (failed log ("Error writing the dot file " ++ path ++ ": " ++ f.message)),
      (disk.put path w.source t).2) := by
  unfold draw Disk.saveDrawing
  rw [hdot, w.source_eq]
  simp only [StateT.run_bind, Disk.run_save disk hpath, pure_bind]
  cases (disk.put path w.source t).1 <;> rfl

/-- The report is written, and then the drawing, or the run fails. -/
theorem run_report (hpath : '\x00' ∉ o.output.toList) (w : M.Printout) (log : List Message)
    (s : σ) : (report disk o M log).run s = match (disk.put o.output w.report s).1 with
      | .ok () => (draw disk o M
          (log ++ [⟨.info, "Minimized DFA has been written to " ++ o.output⟩])).run
            (disk.put o.output w.report s).2
      | .error f => pure (.ok (failed log ("Error writing the output file: " ++ f.message)),
          (disk.put o.output w.report s).2) := by
  unfold report Disk.saveReport
  rw [w.report_eq]
  simp only [StateT.run_bind, Disk.run_save disk hpath, pure_bind]
  cases (disk.put o.output w.report s).1 <;> rfl

section Proper

variable (ho : o.Proper view s)
include ho

/-- How the writes go settles how the run ends. -/
theorem exists_run_report {stage : Stage} {w : M.Printout} (h : Writes disk o w s stage t)
    (log : List Message) : ∃ r, (report disk o M log).run s = pure (r, t) ∧
      Shows r stage.exitCode (o.shows w stage) := by
  rw [run_report ho.output w]
  cases h with
  | unwritten h =>
    rw [h]
    exact ⟨_, rfl, shows_failed _ _⟩
  | undrawn h hdot hdraw =>
    simp only [h, run_draw hdot (ho.drawing hdot) w, hdraw]
    exact ⟨_, rfl, shows_failed _ _⟩
  | report h hdot =>
    rw [h]
    unfold draw
    simp only [hdot]
    exact ⟨_, rfl, shows_finish o w _⟩
  | both h hdot hdraw =>
    simp only [h, run_draw hdot (ho.drawing hdot) w, hdraw]
    exact ⟨_, rfl, shows_finish o w _⟩

end Proper

-- ====================================================== what is written

section Written

variable (hdisk : disk.Lawful view)
include hdisk

theorem sameBut_of_put {r : Except FileFault Unit} {text : String}
    (h : disk.put path text s = (r, t)) : view.SameBut s t [path] := by
  have hsame := hdisk.sameBut_put s path text
  rw [h] at hsame
  exact hsame

/-- A run touches no files but those that it is to write. -/
theorem Writes.sameBut {stage : Stage} {w : M.Printout} (h : Writes disk o w s stage t) :
    view.SameBut s t o.targets := by
  cases h with
  | unwritten h =>
    refine (sameBut_of_put hdisk h).mono fun path hpath => ?_
    exact Options.mem_targets_iff.2 (Or.inl (List.mem_singleton.1 hpath))
  | undrawn h hdot hdraw =>
    rw [Options.targets_of_file hdot]
    exact (sameBut_of_put hdisk h).trans (sameBut_of_put hdisk hdraw)
  | report h hdot =>
    rw [Options.targets_of_nowhere hdot]
    exact sameBut_of_put hdisk h
  | both h hdot hdraw =>
    rw [Options.targets_of_file hdot]
    exact (sameBut_of_put hdisk h).trans (sameBut_of_put hdisk hdraw)

/-- A report that cannot be written is all that is touched. -/
theorem Writes.sameBut_output {w : M.Printout} (h : Writes disk o w s .unwritten t) :
    view.SameBut s t [o.output] := by
  cases h with
  | unwritten h => exact sameBut_of_put hdisk h

/-- The drawing has a file of its own, so the report is as it was written,
even if the drawing is not. -/
theorem holds_output (ho : o.Proper view s) {text source : String}
    {r : Except FileFault Unit} (h : disk.put o.output text s = (.ok (), t))
    (hdot : o.dot = .file path) (hdraw : disk.put path source t = (r, u)) :
    view.Holds u o.output text := by
  refine (hdisk.holds_put h).of_sameBut (sameBut_of_put hdisk hdraw) ?_
  rw [(sameBut_of_put hdisk h).sameFile_iff]
  exact ho.apart path hdot

theorem Writes.holds_output_of_undrawn (ho : o.Proper view s) {w : M.Printout}
    (h : Writes disk o w s .undrawn t) : view.Holds t o.output w.report := by
  cases h with
  | undrawn h hdot hdraw => exact holds_output hdisk ho h hdot hdraw

/-- At the end of a run that succeeds all files hold what they should. -/
theorem Writes.holds_of_written (ho : o.Proper view s) {w : M.Printout}
    (h : Writes disk o w s .written t) :
    view.Holds t o.output w.report ∧ ∀ path, o.dot = .file path → view.Holds t path w.source := by
  cases h with
  | report h hdot =>
    refine ⟨hdisk.holds_put h, fun path hpath => ?_⟩
    rw [hdot] at hpath
    cases hpath
  | both h hdot hdraw =>
    refine ⟨holds_output hdisk ho h hdot hdraw, fun path hpath => ?_⟩
    rw [hdot] at hpath
    cases hpath
    exact hdisk.holds_put hdraw

end Written

-- ====================================================== ends of a run

theorem run_minimizeInput (hdisk : disk.Lawful view) {m : Minimization}
    (h : disk.listed room s o.input = .ok A) (hm : A.minimization = .ok m) :
    (minimizeInput disk room o).run s =
      (report disk o m.minimized (courseMessages A m)).run s := by
  unfold minimizeInput
  simp only [StateT.run_bind, hdisk.run_load, h, pure_bind, hm]

theorem run_minimizeInput_ofFile (hdisk : disk.Lawful view) {f : DiskFault}
    (h : disk.listed room s o.input = .error f) (hf : f.OfFile) :
    ∃ r, (minimizeInput disk room o).run s = pure (r, s) ∧ Shows r 1 "" := by
  unfold minimizeInput
  simp only [StateT.run_bind, hdisk.run_load, h, pure_bind]
  cases f with
  | file f => exact ⟨_, rfl, shows_failed _ _⟩
  | listing f =>
    cases f with
    | format e => exact ⟨_, rfl, shows_failed _ _⟩
    | _ => exact hf.elim
  | _ => exact hf.elim

theorem run_minimizeInput_not_ofFile (hdisk : disk.Lawful view) {f : DiskFault}
    (h : disk.listed room s o.input = .error f) (hf : ¬f.OfFile) :
    (minimizeInput disk room o).run s = pure (.error (.fault f), s) := by
  unfold minimizeInput
  simp only [StateT.run_bind, hdisk.run_load, h, pure_bind]
  cases f with
  | file f => exact absurd trivial hf
  | listing f =>
    cases f with
    | format e => exact absurd trivial hf
    | _ => rfl
  | _ => rfl

/-- What was read is minimized, and the minimal automaton written out. -/
theorem exists_minimization_printout (ho : o.Proper view s)
    (hA : disk.listed room s o.input = .ok A) :
    ∃ m, A.minimization = .ok m ∧ Nonempty m.minimized.Printout := by
  obtain ⟨bytes, cs, -, -, hlines⟩ := (Disk.listed_eq_ok_iff ho.input).1 hA
  obtain ⟨-, m, hm, -, hreportable, hwritable⟩ := Automaton.reportable_of_readLines hlines
  exact ⟨m, hm, Automaton.exists_printout hreportable.comparable_states hwritable⟩

/-- Whatever was read can be minimized and given out. -/
theorem exists_minimize_printout (ho : o.Proper view s) (hA : disk.listed room s o.input = .ok A) :
    ∃ M, A.minimize = .ok M ∧ Nonempty M.Printout := by
  obtain ⟨m, hm, hprintout⟩ := exists_minimization_printout ho hA
  exact ⟨_, Automaton.minimize_eq_ok hm, hprintout⟩

/-- The ways in which a run ends, which its result tells apart. -/
inductive Ended (disk : Disk (StateM σ)) (room : Nat) (o : Options) (s : σ) :
    Except CutOff Outcome → Prop
  | cutOff {c : CutOff} (exceeds : disk.Exceeds room s o.input) : Ended disk room o s (.error c)
  | failed {result : Except CutOff Outcome} (shows_one : Shows result 1 "") :
    Ended disk room o s result
  | succeeded {A M : Automaton} {w : M.Printout} {t : σ} {result : Except CutOff Outcome}
    (listed : disk.listed room s o.input = .ok A) (minimal : A.minimize = .ok M)
    (writes : Writes disk o w s .written t) (shows_zero : Shows result 0 (o.shows w .written)) :
    Ended disk room o s result

section Ends

variable (hdisk : disk.Lawful view) (ho : o.Proper view s)
  (h : runOn disk room o s = (result, u))
include ho h

/-- A run is what comes after its start, with the log from its level on. -/
theorem exists_runOn_eq {r : Except CutOff Outcome}
    (hrun : (minimizeInput disk room o).run s = pure (r, t)) :
    ∃ level, result = r.map (Outcome.atLevel level) ∧ u = t := by
  obtain ⟨level, hlevel⟩ := Option.isSome_iff_exists.1 ho.level
  refine ⟨level, ?_⟩
  unfold runOn run at h
  rw [hlevel] at h
  simp only [StateT.run_bind, hrun, pure_bind] at h
  cases h
  exact ⟨rfl, rfl⟩

theorem shows_of_run {r : Except CutOff Outcome}
    (hrun : (minimizeInput disk room o).run s = pure (r, t)) (hshows : Shows r code printed) :
    Shows result code printed ∧ u = t := by
  obtain ⟨level, rfl, ht⟩ := exists_runOn_eq ho h hrun
  exact ⟨hshows.atLevel level, ht⟩

include hdisk

/-- A run on a file that spells too many states is cut off. -/
theorem cutOff_of_exceeds (hx : disk.Exceeds room s o.input) :
    (∃ c, result = .error c) ∧ u = s := by
  obtain ⟨n, hn⟩ := hx.exists_listed ho.input
  have hrun := run_minimizeInput_not_ofFile hdisk hn (Disk.not_ofFile_excess n)
  obtain ⟨level, rfl, hu⟩ := exists_runOn_eq ho h hrun
  exact ⟨⟨_, rfl⟩, hu⟩

/-- A run without an input that can be read does nothing. -/
theorem shows_of_unread {f : DiskFault} (hf : disk.listed room s o.input = .error f)
    (hfile : f.OfFile) : Shows result 1 "" ∧ u = s := by
  obtain ⟨r, hr, hshows⟩ := run_minimizeInput_ofFile hdisk hf hfile
  exact shows_of_run ho h hr hshows

/-- The other runs end as their writes go. -/
theorem shows_of_writes (hA : disk.listed room s o.input = .ok A) (hM : A.minimize = .ok M)
    {stage : Stage} {w : M.Printout} (hwrites : Writes disk o w s stage t) :
    Shows result stage.exitCode (o.shows w stage) ∧ u = t := by
  obtain ⟨m, hm, -⟩ := exists_minimization_printout ho hA
  obtain rfl : m.minimized = M :=
    Except.ok.inj ((Automaton.minimize_eq_ok hm).symm.trans hM)
  obtain ⟨r, hr, hshows⟩ := exists_run_report ho hwrites (courseMessages A m)
  rw [← run_minimizeInput hdisk hA hm] at hr
  exact shows_of_run ho h hr hshows

/-- How the steps go settles which of the ways it is. -/
theorem ended : Ended disk room o s result := by
  rcases disk.listed_cases room s ho.input with ⟨A, hA⟩ | ⟨f, hf, hfile⟩ | hexceeds
  · obtain ⟨M, hM, ⟨w⟩⟩ := exists_minimize_printout ho hA
    obtain ⟨stage, t, hwrites⟩ := exists_writes disk ho.dot w s
    have hshows := (shows_of_writes hdisk ho h hA hM hwrites).1
    cases stage with
    | unwritten => exact .failed hshows
    | undrawn => exact .failed hshows
    | written => exact .succeeded hA hM hwrites hshows
  · exact .failed (shows_of_unread hdisk ho h hf hfile).1
  · obtain ⟨⟨c, rfl⟩, -⟩ := cutOff_of_exceeds hdisk ho h hexceeds
    exact .cutOff hexceeds

end Ends

-- ======================================================= the contract

/-- What a run owes: its result, and the disk after it, by what the disk
was before. -/
structure Contract (disk : Disk (StateM σ)) (view : Disk.View σ π) (room : Nat) (o : Options)
    (s : σ) (result : Except CutOff Outcome) (s' : σ) : Prop where
  /-- Nothing but states that cannot be counted out cuts a run off. -/
  cutOff_iff : (∃ c, result = .error c) ↔ disk.Exceeds room s o.input
  /-- A run that is cut off leaves the disk as it is. -/
  cutOff : disk.Exceeds room s o.input → s' = s
  exitCode : ∀ x, result = .ok x → x.exitCode = 0 ∨ x.exitCode = 1
  /-- The input is not there to be read, or it is no listing. -/
  unread : ∀ f, disk.listed room s o.input = .error f → f.OfFile → Shows result 1 "" ∧ s' = s
  /-- Whatever was read can be minimized and given out. -/
  made : ∀ A, disk.listed room s o.input = .ok A →
    ∃ M, A.minimize = .ok M ∧ Nonempty M.Printout
  /-- The report cannot be written. -/
  unwritten : ∀ A M (w : M.Printout) t, disk.listed room s o.input = .ok A →
    A.minimize = .ok M → Writes disk o w s .unwritten t →
      Shows result 1 "" ∧ s' = t ∧ view.SameBut s t [o.output]
  /-- The drawing cannot be written, but the report is. -/
  undrawn : ∀ A M (w : M.Printout) t, disk.listed room s o.input = .ok A →
    A.minimize = .ok M → Writes disk o w s .undrawn t →
      Shows result 1 "" ∧ s' = t ∧ view.Holds t o.output w.report ∧ view.SameBut s t o.targets
  /-- A run succeeds exactly if no step fails. -/
  succeeds_iff : (∃ printed, Shows result 0 printed) ↔
    ∃ A M, disk.listed room s o.input = .ok A ∧ A.minimize = .ok M ∧
      ∃ (w : M.Printout) (t : σ), Writes disk o w s .written t
  /-- What is written and printed is made of the input as it was. -/
  written : ∀ A M (w : M.Printout) t, disk.listed room s o.input = .ok A →
    A.minimize = .ok M → Writes disk o w s .written t →
      Shows result 0 (o.shows w .written) ∧ s' = t ∧ view.Holds t o.output w.report ∧
        (∀ path, o.dot = .file path → view.Holds t path w.source) ∧ view.SameBut s t o.targets

/-- A run keeps to the contract on every lawful disk, whatever is on it and
whichever writes fail. -/
theorem run_contract (hdisk : disk.Lawful view) (ho : o.Proper view s)
    (h : runOn disk room o s = (result, u)) : Contract disk view room o s result u := by
  have hended := ended hdisk ho h
  constructor
  case cutOff_iff =>
    refine ⟨fun hc => ?_, fun hx => (cutOff_of_exceeds hdisk ho h hx).1⟩
    obtain ⟨c, hc⟩ := hc
    cases hended with
    | cutOff hexceeds => exact hexceeds
    | failed hone => exact absurd hc (hone.ne_error c)
    | succeeded hA hM hwrites hzero => exact absurd hc (hzero.ne_error c)
  case cutOff => exact fun hx => (cutOff_of_exceeds hdisk ho h hx).2
  case exitCode =>
    intro x hx
    cases hended with
    | cutOff hexceeds => cases hx
    | failed hone => exact Or.inr (hone.exitCode_eq hx)
    | succeeded hA hM hwrites hzero => exact Or.inl (hzero.exitCode_eq hx)
  case unread => exact fun f hf hfile => shows_of_unread hdisk ho h hf hfile
  case made => exact fun A hA => exists_minimize_printout ho hA
  case unwritten =>
    intro A M w t hA hM hwrites
    obtain ⟨hshows, hu⟩ := shows_of_writes hdisk ho h hA hM hwrites
    exact ⟨hshows, hu, hwrites.sameBut_output hdisk⟩
  case undrawn =>
    intro A M w t hA hM hwrites
    obtain ⟨hshows, hu⟩ := shows_of_writes hdisk ho h hA hM hwrites
    exact ⟨hshows, hu, hwrites.holds_output_of_undrawn hdisk ho, hwrites.sameBut hdisk⟩
  case succeeds_iff =>
    constructor
    · intro hzero
      obtain ⟨printed, hzero⟩ := hzero
      cases hended with
      | cutOff hexceeds => exact absurd rfl (hzero.ne_error _)
      | failed hone => exact absurd (hzero.code_eq hone) (by decide)
      | succeeded hA hM hwrites hshows => exact ⟨_, _, hA, hM, _, _, hwrites⟩
    · intro hall
      obtain ⟨A, M, hA, hM, w, t, hwrites⟩ := hall
      exact ⟨_, (shows_of_writes hdisk ho h hA hM hwrites).1⟩
  case written =>
    intro A M w t hA hM hwrites
    obtain ⟨hshows, hu⟩ := shows_of_writes hdisk ho h hA hM hwrites
    obtain ⟨hreport, hdrawing⟩ := hwrites.holds_of_written hdisk ho
    exact ⟨hshows, hu, hreport, hdrawing, hwrites.sameBut hdisk⟩

/-- A file "in.txt" that lists a state and a letter, and nothing else. -/
def oneFile : FileTree where
  directories := []
  files := [(["in.txt"], "1\na\n0\n0\n0 a 0\n".toUTF8)]

/-- Asks for the report in the place of the input, and for a drawing. -/
def inPlace : Options where
  input := "in.txt"
  output := "in.txt"
  dot := .file "out.dot"
  quiet := false
  level? := some .info

theorem run_contract_inPlace :
    FileTree.disk.Lawful FileTree.view ∧ inPlace.Proper FileTree.view oneFile ∧
      ∃ result u, runOn FileTree.disk 1 inPlace oneFile = (result, u) ∧
        Contract FileTree.disk FileTree.view 1 inPlace oneFile result u ∧
        ∃ printed, Shows result 0 printed := by
  have hproper : inPlace.Proper FileTree.view oneFile := by
    refine ⟨rfl, by decide, by decide, by decide, fun path hpath hsame => ?_⟩
    cases hpath
    obtain ⟨p, hp, hp'⟩ := hsame
    have hin : FileTree.view.place? oneFile (.ofString "in.txt") = some ["in.txt"] := by decide
    have hdot : FileTree.view.place? oneFile (.ofString "out.dot") = some ["out.dot"] := by decide
    rw [hdot, Option.some.injEq] at hp'
    rw [show inPlace.output = "in.txt" from rfl, hin, ← hp', Option.some.injEq] at hp
    exact absurd hp (by decide)
  have hcontract : Contract FileTree.disk FileTree.view 1 inPlace oneFile _ _ :=
    run_contract FileTree.lawful hproper rfl
  exact ⟨FileTree.lawful, hproper, _, _, rfl, hcontract, exists_shows_iff.2 (by decide +kernel)⟩

/-- On a full disk the report gets as much room only as the input had. -/
example : (runOn FileTree.disk 1 inPlace { oneFile with space? := some 0 }).1.map
    Outcome.exitCode = .ok 1 := by
  decide +kernel

/-- A file "in.txt" with a count that is out of bounds. -/
def uncountableFile : FileTree where
  directories := []
  files := [(["in.txt"], Listing.uncountable.toUTF8)]

/-- Asks for the report of "in.txt". -/
def plain : Options where
  input := "in.txt"
  output := "out.txt"
  dot := .nowhere
  quiet := false
  level? := some .info

/-- A run on a file that lists no automaton, for want of transitions, need
not come to an end of its own, whatever memory holds. -/
theorem run_countOverflow :
    plain.Proper FileTree.view uncountableFile ∧ ∀ room,
      (¬∃ A, FileTree.disk.listed room uncountableFile plain.input = .ok A) ∧
        (runOn FileTree.disk room plain uncountableFile).1 =
          .error (.fault (.listing .countOverflow)) := by
  refine ⟨⟨rfl, by decide, by decide, by decide, fun path hpath => nomatch hpath⟩, fun room => ?_⟩
  have hread : ((FileTree.disk.read (.ofString plain.input)).run uncountableFile).1 =
      .ok Listing.uncountable.toUTF8 := by
    decide +kernel
  have htext : Text.ofBytes Listing.uncountable.toUTF8 = .ok Listing.uncountable.toList := by
    decide +kernel
  have hlisted : FileTree.disk.listed room uncountableFile plain.input =
      .error (.listing .countOverflow) := by
    rw [Disk.listed_of_text (by decide) hread htext, Listing.readLines_uncountable]
    rfl
  refine ⟨fun h => ?_, ?_⟩
  · obtain ⟨A, hA⟩ := h
    rw [hlisted] at hA
    cases hA
  · have hrun := run_minimizeInput_not_ofFile FileTree.lawful hlisted fun h => h
    unfold runOn run
    simp only [show plain.level? = some .info from rfl, StateT.run_bind, hrun, pure_bind]
    rfl

end CommandLine

end Automata
