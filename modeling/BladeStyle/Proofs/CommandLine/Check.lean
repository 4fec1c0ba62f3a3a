import BladeStyle.Proofs.Acceptance
import BladeStyle.Proofs.CommandLine.Write

/-!
# Checking whether inputs are formatted

A run with `--check` compares the text of each input with its formatted text.  Every input that can
be read and parsed is compared, whatever came of those before it, and only one that cannot ends the
run.  So the status tells whether all inputs are formatted, and the messages tell which are not.
Only a run that is asked to write ever changes a file.
-/

namespace BladeStyle.CommandLine

/-! ### Inputs -/

/-- An input of a run: its name in messages and its text, if it can be read. -/
structure Input where
  name : String
  text : Except ReadError String

/-- The inputs of a run: the files at some paths or, without any, the standard input. -/
def inputs (paths : List String) (input : ByteArray) (f : Folder) : List Input :=
  if paths = [] then [⟨"<stdin>", decode input⟩]
  else paths.map fun path => ⟨path, f.readText path⟩

namespace Input

variable {i : Input} {options : FormatOptions}

/-- The input can be read and parsed. -/
def Parses (i : Input) : Prop := ∃ text t, i.text = .ok text ∧ Style.parse text = .ok t

/-- An input that cannot be read does not parse. -/
theorem not_parses {e : ReadError} (h : i.text = .error e) :
  ¬ i.Parses
  := by
  rintro ⟨text, t, htext, -⟩
  rw [h] at htext
  cases htext

/-- Whether the input is its formatted text and a line feed. -/
def isFormatted (options : FormatOptions) (i : Input) : Bool :=
  match i.text with
  | .error _ => false
  | .ok text => (format text options).toOption.any fun out => out ++ "\n" = text

/-- An input that can be formatted is formatted if its text is the formatted one and a
line feed. -/
theorem isFormatted_eq {text out : String} (htext : i.text = .ok text)
    (hformat : format text options = .ok out) :
  i.isFormatted options = decide (out ++ "\n" = text)
  := by
  rw [isFormatted, htext]
  simp only [hformat, Except.toOption, Option.any_some]

/-- An input is formatted exactly if it can be read and formatting it gives its text back,
up to the line feed at the end. -/
theorem isFormatted_iff :
  i.isFormatted options = true
    ↔ ∃ text out, i.text = .ok text ∧ format text options = .ok out ∧ out ++ "\n" = text
  := by
  constructor
  · intro h
    rw [isFormatted] at h
    split at h
    · cases h
    · next text htext =>
      cases hformat : format text options with
      | error e =>
        rw [hformat] at h
        cases h
      | ok out =>
        rw [hformat] at h
        exact ⟨text, out, htext, hformat, of_decide_eq_true h⟩
  · rintro ⟨text, out, htext, hformat, hsame⟩
    rw [isFormatted_eq htext hformat]
    apply decide_eq_true hsame

/-- The messages about the inputs that are not formatted, in order. -/
def complaints (options : FormatOptions) (inputs : List Input) : String :=
  String.join ((inputs.filter fun i => !i.isFormatted options).map fun i =>
    s!"would reformat {i.name}\n")

end Input

/-! ### A check -/

namespace Progress

variable {o : Options} {p : Progress}

/-- The progress of a check after an input that is parsed. -/
def checked (options : FormatOptions) (p : Progress) (i : Input) : Progress :=
  if i.isFormatted options then p
  else { p with clean := false, stderr := p.stderr ++ s!"would reformat {i.name}\n" }

/-- What a check makes of an input. -/
inductive Checks (options : FormatOptions) (p : Progress) (i : Input) :
    Except String Progress → Prop where
  | failed {message : String} (h : ¬ i.Parses) : Checks options p i (.error message)
  | checked (h : i.Parses) : Checks options p i (.ok (p.checked options i))

/-- Under a check a text that was read is compared with what formatting makes of it. -/
theorem checks_onText (hcheck : o.task = .check) (p : Progress) {i : Input} {text : String}
    (htext : i.text = .ok text) (path : Option String) :
  p.Checks o.format i (p.onText o i.name path text)
  := by
  cases hparse : Style.parse text with
  | error e =>
    rw [onText, hparse]
    apply Checks.failed
    rintro ⟨text', t, htext', ht⟩
    obtain rfl := Except.ok.inj (htext.symm.trans htext')
    rw [hparse] at ht
    cases ht
  | ok s =>
    obtain ⟨out, -, hformat⟩ := exists_format_of_parse hparse o.format
    have hformatted := Input.isFormatted_eq htext hformat
    have hchecked : p.onText o i.name path text = .ok (p.checked o.format i) := by
      rw [format, hparse] at hformat
      rw [onText, hparse, checked, hformatted]
      simp only [onStyle, hcheck, hformat, Except.map, Except.mapError, decide_eq_true_eq]
    rw [hchecked]
    exact .checked ⟨text, s, htext, hparse⟩

/-- Under a check a file is compared with what formatting makes of its text. -/
theorem checks_onFile (hcheck : o.task = .check) (p : Progress) (path : String) :
  p.Checks o.format ⟨path, p.folder.readText path⟩ (p.onFile o path)
  := by
  rw [onFile]
  cases p.folder.readText path with
  | error e => apply Checks.failed (Input.not_parses rfl)
  | ok text => apply checks_onText hcheck p rfl

/-- Under a check the standard input is compared with what formatting makes of its text. -/
theorem checks_onInput (hcheck : o.task = .check) (p : Progress) (input : ByteArray) :
  p.Checks o.format ⟨"<stdin>", decode input⟩ (p.onInput o input)
  := by
  rw [onInput]
  cases decode input with
  | error e => apply Checks.failed (Input.not_parses rfl)
  | ok text => apply checks_onText hcheck p rfl

/-- What is left of some inputs where a check ends: nothing, or an input that cannot be read or
parsed and those after it. -/
inductive Ends : List Input → Option String → Prop where
  | finished : Ends [] none
  | failed {i : Input} {inputs : List Input} {message : String} (h : ¬ i.Parses) :
      Ends (i :: inputs) (some message)

/-- Checking inputs one after the other adds their complaints, and stays clean if all of
them are formatted. -/
theorem foldl_checked (options : FormatOptions) (inputs : List Input) (p : Progress) :
  inputs.foldl (checked options) p
    = { p with
        clean := p.clean && inputs.all (·.isFormatted options)
        stderr := p.stderr ++ Input.complaints options inputs }
  := by
  induction inputs generalizing p with
  | nil => simp [Input.complaints]
  | cons i inputs ih =>
    rw [List.foldl_cons, ih, checked]
    cases h : i.isFormatted options with
    | true => simp [Input.complaints, h]
    | false => simp [Input.complaints, h, String.append_assoc]

theorem folder_checked (options : FormatOptions) (p : Progress) (i : Input) :
  (p.checked options i).folder = p.folder
  := by
  rw [checked]
  split <;> rfl

/-- A check goes through the files up to the first one that cannot be read or parsed; by induction
on the paths. -/
theorem exists_checked_onFiles (hcheck : o.task = .check) (paths : List String) (p : Progress) :
  ∃ done rest failure, (paths.map fun path => ⟨path, p.folder.readText path⟩) = done ++ rest
    ∧ (∀ i ∈ done, i.Parses) ∧ Ends rest failure
    ∧ p.onFiles o paths = (done.foldl (checked o.format) p, failure)
  := by
  induction paths generalizing p with
  | nil => exact ⟨[], [], none, rfl, List.forall_mem_nil _, .finished, rfl⟩
  | cons path paths ih =>
    have hfile := checks_onFile hcheck p path
    rw [onFiles]
    cases hfile' : p.onFile o path with
    | error message =>
      rw [hfile'] at hfile
      obtain ⟨hfails⟩ := hfile
      exact ⟨[], _, some message, rfl, List.forall_mem_nil _, .failed hfails, rfl⟩
    | ok q =>
      rw [hfile'] at hfile
      cases hfile with
      | checked hparses =>
        obtain ⟨done, rest, failure, hinputs, hdone, hends, hfiles⟩ :=
          ih (p.checked o.format ⟨path, p.folder.readText path⟩)
        rw [folder_checked] at hinputs
        refine ⟨_ :: done, rest, failure, ?_, List.forall_mem_cons.mpr ⟨hparses, hdone⟩, hends,
          hfiles⟩
        rw [List.map_cons, hinputs, List.cons_append]

end Progress

/-- A check goes through its inputs up to the first one that cannot be read or parsed. -/
theorem exists_checked_run {o : Options} (hcheck : o.task = .check) (input : ByteArray)
    (f : Folder) :
  ∃ done rest failure, inputs o.paths input f = done ++ rest ∧ (∀ i ∈ done, i.Parses)
    ∧ Progress.Ends rest failure
    ∧ run o input f
      = (done.foldl (Progress.checked o.format) ⟨true, "", "", f⟩).report failure
  := by
  rw [run, inputs]
  split
  · have hinput := Progress.checks_onInput hcheck ⟨true, "", "", f⟩ input
    cases hinput' : Progress.onInput o input ⟨true, "", "", f⟩ with
    | error message =>
      rw [hinput'] at hinput
      obtain ⟨hfails⟩ := hinput
      exact ⟨[], _, some message, rfl, List.forall_mem_nil _, .failed hfails, rfl⟩
    | ok q =>
      rw [hinput'] at hinput
      cases hinput with
      | checked hparses =>
        exact ⟨[_], [], none, rfl, List.forall_mem_singleton.mpr hparses, .finished, rfl⟩
  · obtain ⟨done, rest, failure, hinputs, hdone, hends, hfiles⟩ :=
      Progress.exists_checked_onFiles hcheck o.paths ⟨true, "", "", f⟩
    refine ⟨done, rest, failure, hinputs, hdone, hends, ?_⟩
    rw [hfiles]

/-- What a check reports. -/
theorem run_of_check {o : Options} (hcheck : o.task = .check) (input : ByteArray) (f : Folder) :
  ((run o input f).status = 2 ↔ ∃ i ∈ inputs o.paths input f, ¬ i.Parses)
    ∧ ((∀ i ∈ inputs o.paths input f, i.Parses) →
      run o input f
        = ⟨if (inputs o.paths input f).all (·.isFormatted o.format) then 0 else 1, "",
          Input.complaints o.format (inputs o.paths input f), f⟩)
    ∧ (run o input f).stdout = ""
  := by
  obtain ⟨done, rest, failure, hinputs, hdone, hends, hrun⟩ := exists_checked_run hcheck input f
  rw [hinputs, hrun, Progress.foldl_checked]
  cases hends with
  | finished =>
    rw [List.append_nil]
    refine ⟨?_, ?_, rfl⟩
    · have hstatus : ∀ clean : Bool, (if clean = true then 0 else 1) ≠ 2 := by decide
      constructor
      · intro h
        exact absurd h (hstatus _)
      · rintro ⟨i, hi, hfails⟩
        exact absurd (hdone i hi) hfails
    · intro _
      simp [Progress.report]
  | @failed i inputs message h =>
    have hi : i ∈ done ++ i :: inputs := List.mem_append_right done List.mem_cons_self
    refine ⟨?_, ?_, rfl⟩
    · constructor
      · intro _
        exact ⟨i, hi, h⟩
      · intro _
        rfl
    · intro hall
      exact absurd (hall i hi) h

/-! ### Runs that do not write -/

namespace Progress

variable {o : Options} {p q : Progress}

/-- Only a task that writes changes the folder when a style has been parsed. -/
theorem folder_onStyle (h : o.task ≠ .write) {name text : String} {path : Option String} {s : Style}
    (hq : p.onStyle o name path text s = .ok q) :
  q.folder = p.folder
  := by
  rw [onStyle] at hq
  cases htask : o.task with
  | write => exact absurd htask h
  | json | lint =>
    simp only [htask] at hq
    obtain rfl := Except.ok.inj hq
    rfl
  | print =>
    simp only [htask] at hq
    obtain ⟨formatted, -, rfl⟩ := exists_of_map_eq_ok hq
    rfl
  | check =>
    simp only [htask] at hq
    obtain ⟨formatted, -, rfl⟩ := exists_of_map_eq_ok hq
    split <;> rfl

/-- Only a task that writes changes the folder when a text has been read. -/
theorem folder_onText (h : o.task ≠ .write) {name text : String} {path : Option String}
    (hq : p.onText o name path text = .ok q) :
  q.folder = p.folder
  := by
  rw [onText] at hq
  split at hq
  · cases hq
  · apply folder_onStyle h (eq_ok_of_mapError hq)

/-- Only a task that writes changes the folder when a file is processed. -/
theorem folder_onFile (h : o.task ≠ .write) {path : String} (hq : p.onFile o path = .ok q) :
  q.folder = p.folder
  := by
  rw [onFile] at hq
  split at hq
  · cases hq
  · apply folder_onText h hq

/-- Only a task that writes changes the folder when the standard input is processed. -/
theorem folder_onInput (h : o.task ≠ .write) {input : ByteArray} (hq : p.onInput o input = .ok q) :
  q.folder = p.folder
  := by
  rw [onInput] at hq
  split at hq
  · cases hq
  · apply folder_onText h hq

/-- Without a task that writes the folder stays as it is, however many files are
processed. -/
theorem folder_onFiles (h : o.task ≠ .write) (paths : List String) (p : Progress) :
  (p.onFiles o paths).1.folder = p.folder
  := by
  induction paths generalizing p with
  | nil => rfl
  | cons path paths ih =>
    rw [onFiles]
    split
    · next q hq =>
      rw [ih]
      apply folder_onFile h hq
    · rfl

theorem folder_report (p : Progress) (failure : Option String) :
  (p.report failure).folder = p.folder
  := by
  cases failure <;> rfl

end Progress

/-- Only a run that is asked to write changes files. -/
theorem folder_run {o : Options} (h : o.task ≠ .write) (input : ByteArray) (f : Folder) :
  (run o input f).folder = f
  := by
  rw [run]
  split
  · split
    · next q hq =>
      rw [Progress.folder_report]
      apply Progress.folder_onInput h hq
    · rfl
  · apply (Progress.folder_report _ _).trans (Progress.folder_onFiles h _ _)

/-! ### Flags and paths -/

/-- No two of the flags exclude each other. -/
def Given.Admissible (g : Given) : Prop := ∀ x ∈ Flag.conflicts, x.1 ∈ g.flags → x.2 ∉ g.flags

namespace Options

variable {g : Given}

/-- Admissible arguments with the flag for a check ask for a check, whatever else they
say. -/
theorem task_of_check (hadmissible : g.Admissible) (hcheck : .check ∈ g.flags) :
  (ofGiven g).task = .check
  := by
  have hjson : .json ∉ g.flags := hadmissible (.check, .json) (by decide) hcheck
  have hlint : .lint ∉ g.flags := hadmissible (.check, .lint) (by decide) hcheck
  simp only [ofGiven, if_neg hjson, if_neg hlint, if_pos hcheck]

/-- Without the flag that asks to write, a run does something else. -/
theorem task_ne_write (hwrite : .write ∉ g.flags) :
  (ofGiven g).task ≠ .write
  := by
  simp only [ofGiven, if_neg hwrite]
  split
  · nofun
  · split
    · nofun
    · split <;> nofun

end Options

/-- A run with `--check` decides whether its inputs are formatted: the files at the given paths or,
without any, the standard input.  It ends with status 2 exactly if one of them cannot be read as
text or is not parsed.  Otherwise the status is 0 if each is its formatted text and a line feed, and
1 if not, and there is one message for each that is not, in order.  Comments are dropped from the
formatted text with `--strip-comments`, it is on one line with `--compact`, and styles with errors
are formatted with `--allow-incomplete`.  Nothing is printed to the standard output.  A run changes
no file unless it is asked to write. -/
theorem check_decides_formattedness {g : Given} (hadmissible : g.Admissible)
    (hcheck : .check ∈ g.flags) (input : ByteArray) (f : Folder) :
  let report := run (.ofGiven g) input f
  let given := inputs g.paths input f
  let options : FormatOptions :=
    { keepComments := .stripComments ∉ g.flags
      requireComplete := .allowIncomplete ∉ g.flags
      layout := if .compact ∈ g.flags then .compact else .multiline }
  (report.status = 2 ↔ ∃ i ∈ given, ¬ i.Parses)
    ∧ ((∀ i ∈ given, i.Parses) →
      (report.status = 0 ↔ ∀ i ∈ given, ∃ text out, i.text = .ok text
          ∧ format text options = .ok out ∧ out ++ "\n" = text)
        ∧ (report.status = 0 ∨ report.status = 1)
        ∧ report.stderr = Input.complaints options given)
    ∧ report.stdout = "" ∧ report.folder = f
    ∧ ∀ (g' : Given) (input' : ByteArray) (f' : Folder),
      .write ∉ g'.flags → (run (.ofGiven g') input' f').folder = f'
  := by
  intro report given options
  have htask := Options.task_of_check hadmissible hcheck
  obtain ⟨hfails, hpasses, hstdout⟩ := run_of_check htask input f
  refine ⟨hfails, ?_, hstdout, folder_run (by rw [htask]; nofun) input f, ?_⟩
  · intro hall
    have hreport : report = ⟨if given.all (·.isFormatted options) then 0 else 1, "",
        Input.complaints options given, f⟩ := hpasses hall
    rw [hreport]
    refine ⟨?_, ?_, rfl⟩
    · have hformatted : given.all (·.isFormatted options) = true
          ↔ ∀ i ∈ given, ∃ text out, i.text = .ok text ∧ format text options = .ok out
            ∧ out ++ "\n" = text := by
        simp only [List.all_eq_true, Input.isFormatted_iff]
      rw [← hformatted]
      dsimp only
      split <;> simp_all
    · dsimp only
      split
      · exact Or.inl rfl
      · exact Or.inr rfl
  · intro g' input' f' hwrite
    apply folder_run (Options.task_ne_write hwrite)

/-- A check of the drafts that are texts, one of them twice. -/
def checkDrafts : Given := ⟨[.check, .compact], ["a.txt", "b.txt", "./a.txt"]⟩

theorem check_decides_formattedness_drafts :
  checkDrafts.Admissible ∧ .check ∈ checkDrafts.flags
    ∧ (run (.ofGiven checkDrafts) ⟨#[]⟩ drafts).status = 1
    ∧ (run (.ofGiven checkDrafts) ⟨#[]⟩ drafts).stderr
      = "would reformat a.txt\nwould reformat ./a.txt\n"
    ∧ (∀ i ∈ inputs checkDrafts.paths ⟨#[]⟩ drafts, i.Parses)
    ∧ (run (.ofGiven checkDrafts) ⟨#[]⟩ drafts).stdout = ""
    ∧ (run (.ofGiven checkDrafts) ⟨#[]⟩ drafts).folder = drafts
  := by
  have hadmissible : checkDrafts.Admissible := by
    unfold Given.Admissible
    decide
  have hcheck : .check ∈ checkDrafts.flags := List.mem_cons_self
  obtain ⟨hstatus, hstderr⟩ : (run (.ofGiven checkDrafts) ⟨#[]⟩ drafts).status = 1
      ∧ (run (.ofGiven checkDrafts) ⟨#[]⟩ drafts).stderr
        = "would reformat a.txt\nwould reformat ./a.txt\n" := by
    decide +kernel
  obtain ⟨hfails, -, hstdout, hfolder, -⟩ :=
    check_decides_formattedness hadmissible hcheck ⟨#[]⟩ drafts
  refine ⟨hadmissible, hcheck, hstatus, hstderr, ?_, hstdout, hfolder⟩
  intro i hi
  by_contra hparses
  have hstatus' := hfails.mpr ⟨i, hi, hparses⟩
  rw [hstatus] at hstatus'
  cases hstatus'

end BladeStyle.CommandLine
