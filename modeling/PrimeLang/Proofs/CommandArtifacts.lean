import PrimeLang.Command.Directory
import PrimeLang.Proofs.FunctionRegions
import PrimeLang.Proofs.ObjectFormat

/-! # What the command leaves in a directory

A path names at most one file, and no write changes which one. So a run can be told by what it
writes: nothing where the source is refused, the listing alone where the output path names no file,
and in a successful run the object file last, whatever else the output path names. -/

namespace PrimeLang.Command
open Machine

/-! ## Files and the paths that name them -/

/-- The path of the file that is there or can be created there. -/
def Target.file? : Target → Option Path
  | dir => none
  | file path _ | absent path => some path

namespace Directory
variable {d : Directory}

/-- The file that a path names, whether it exists or not. -/
def file? (d : Directory) (path : String) : Option Path :=
  if endsInSlash path then none else (d.find path).toOption.bind Target.file?

/-- The same with a file replaced or created. -/
def put (d : Directory) (file : Path) (content : ByteArray) : Directory :=
  { d with files := (file, content) :: d.files.filter (·.1 ≠ file) }

theorem lookup_filter_ne {file other : Path} (h : other ≠ file) (files : List (Path × ByteArray)) :
    (files.filter (·.1 ≠ file)).lookup other = files.lookup other := by
  induction files with
  | nil => rfl
  | cons entry files ih =>
    obtain ⟨path, content⟩ := entry
    by_cases hpath : path = file
    · have hother : (other == path) = false := by simpa [hpath] using h
      simp [hpath, List.lookup_cons, hpath ▸ hother, ← ih]
    · simp [hpath, List.lookup_cons, ← ih]

theorem lookup_put (file other : Path) (content : ByteArray) :
    (d.put file content).files.lookup other =
      if other = file then some content else d.files.lookup other := by
  rw [put, List.lookup_cons]
  by_cases h : other = file
  · simp [h]
  · simp only [beq_eq_false_iff_ne.2 h, if_neg h]
    exact lookup_filter_ne h d.files

/-- Which file names lead to depends on the directories alone. -/
theorem file?_follow_cons (path : Path) (name : String) (names : List String) :
    (d.follow path (name :: names)).toOption.bind Target.file? =
      if name = "." then (d.follow path names).toOption.bind Target.file?
      else if name = ".." then (d.follow path.dropLast names).toOption.bind Target.file?
      else if path ++ [name] ∈ d.dirs then
        (d.follow (path ++ [name]) names).toOption.bind Target.file?
      else if names = [] then some (path ++ [name]) else none := by
  rw [follow]
  split
  · rfl
  split
  · rfl
  simp only
  split
  · rfl
  split <;> split <;> rfl

theorem file?_follow_put (file : Path) (content : ByteArray) (path : Path) (names : List String) :
    ((d.put file content).follow path names).toOption.bind Target.file? =
      (d.follow path names).toOption.bind Target.file? := by
  induction names generalizing path with
  | nil => rfl
  | cons name names ih =>
    rw [file?_follow_cons, file?_follow_cons, ih, ih, ih]
    rfl

theorem file?_put (file : Path) (content : ByteArray) (path : String) :
    (d.put file content).file? path = d.file? path := by
  simp only [file?, find]
  split
  · rfl
  split
  · rfl
  · exact file?_follow_put file content _ _

/-- At the path of the target the directory holds what the target says. -/
def Holds (d : Directory) : Target → Prop
  | .dir => True
  | .file path content => d.files.lookup path = some content
  | .absent path => d.files.lookup path = none

theorem holds_of_follow {path : Path} {names : List String} {target : Target}
    (h : d.follow path names = .ok target) : d.Holds target := by
  induction names generalizing path with
  | nil =>
    cases h
    trivial
  | cons name names ih =>
    rw [follow] at h
    split at h
    · exact ih h
    split at h
    · exact ih h
    simp only at h
    split at h
    · exact ih h
    split at h
    · next content hlookup =>
      split at h
      · cases h
        exact hlookup
      · cases h
    · next hlookup =>
      split at h
      · cases h
        exact hlookup
      · cases h

theorem holds_of_find {path : String} {target : Target} (h : d.find path = .ok target) :
    d.Holds target := by
  rw [find] at h
  split at h
  · cases h
  · exact holds_of_follow h

theorem toOption_read (path : String) :
    (d.read path).toOption = (d.file? path).bind (d.files.lookup ·) := by
  rw [read, file?]
  cases hfind : d.find path with
  | error e => split <;> rfl
  | ok target =>
    cases hslash : endsInSlash path with
    | true => cases target <;> rfl
    | false =>
      have hheld := holds_of_find hfind
      cases target with
      | dir => rfl
      | file path content => exact hheld.symm
      | absent path => exact hheld.symm

theorem toOption_write (path : String) (content : ByteArray) :
    (d.write path content).toOption = (d.file? path).map (d.put · content) := by
  rw [write, file?]
  cases hfind : d.find path with
  | error e => split <;> rfl
  | ok target => cases target <;> cases endsInSlash path <;> rfl

theorem read_put {file : Path} {path : String} (content : ByteArray)
    (h : d.file? path = some file) : (d.put file content).read path = .ok content := by
  have hread := (d.put file content).toOption_read path
  rw [file?_put, h, Option.bind_some, lookup_put, if_pos rfl] at hread
  cases hcontent : (d.put file content).read path with
  | error e =>
    rw [hcontent] at hread
    cases hread
  | ok found =>
    rw [hcontent] at hread
    cases hread
    rfl

theorem readText_of_read {path text : String} (h : d.read path = .ok text.toUTF8) :
    d.readText path = .ok text := by
  have hdecode : String.fromUTF8? text.toUTF8 = some text := dif_pos text.isValidUTF8
  rw [readText, h]
  simp only [bind, Except.bind, hdecode]
  rfl

end Directory

/-! ## Actions -/

section
variable {d : Directory} {out : String} {status : UInt32} {path : String} {content : ByteArray}
  {rest : List Action}

theorem perform_prints {prints : List Action} (h : ∀ a ∈ prints, ∃ text, a = .print text) :
    ∃ out', perform d out status (prints ++ rest) = perform d out' status rest := by
  induction prints generalizing out with
  | nil => exact ⟨out, rfl⟩
  | cons a prints ih =>
    obtain ⟨text, rfl⟩ := h a List.mem_cons_self
    exact ih fun a ha => h a (List.mem_cons_of_mem _ ha)

theorem perform_write {file : Path} (h : d.file? path = some file) :
    perform d out status (.write path content :: rest) =
      perform (d.put file content) out status rest := by
  have hwrite := d.toOption_write path content
  rw [perform]
  rw [h] at hwrite
  split
  · next d' hok =>
    rw [hok] at hwrite
    cases hwrite
    rfl
  · next e herror =>
    rw [herror] at hwrite
    cases hwrite

theorem perform_write_of_none (h : d.file? path = none) :
    (perform d out status (.write path content :: rest)).status = 1 ∧
      (perform d out status (.write path content :: rest)).directory = d := by
  have hwrite := d.toOption_write path content
  rw [perform]
  rw [h] at hwrite
  split
  · next d' hok =>
    rw [hok] at hwrite
    cases hwrite
  · exact ⟨rfl, rfl⟩

end

/-! ## Runs -/

/-- The source text cannot be read or compiled, or it has warnings that are denied. -/
inductive Refuses (d : Directory) (o : Options) : Prop
  | unread {e : FileError} : d.readText o.input = .error e → Refuses d o
  | invalid {text : String} {e : CompileError} : d.readText o.input = .ok text →
    compile text = .error e → Refuses d o
  | denied {text : String} {p : Program} {object : Object} : d.readText o.input = .ok text →
    compile text = .ok (p, object) → o.denyWarnings = true → object.warnings ≠ #[] → Refuses d o

/-- The source text at the start of the run, its program and its object, for which files are
written. -/
structure Accepts (d : Directory) (o : Options) (text : String) (p : Program) (object : Object) :
    Prop where
  read : d.readText o.input = .ok text
  compiled : compile text = .ok (p, object)
  allowed : o.denyWarnings = true → object.warnings = #[]

/-- The directory once the listing is written, if one is asked for. -/
inductive Listed (d : Directory) (o : Options) : Directory → Prop
  | skipped : o.listing = none → Listed d o d
  | written {path : String} {file : Path} {content : ByteArray} : o.listing = some path →
    d.file? path = some file → Listed d o (d.put file content)

/-- How a run ends: the exit status and the directory that is left. -/
inductive Ends (d : Directory) (o : Options) : UInt32 → Directory → Prop
  | refused : Refuses d o → Ends d o 1 d
  | unlisted {text : String} {p : Program} {object : Object} {path : String} :
    Accepts d o text p object → o.listing = some path → d.file? path = none → Ends d o 1 d
  | unwritten {text : String} {p : Program} {object : Object} {d' : Directory} :
    Accepts d o text p object → Listed d o d' → d.file? o.output = none → Ends d o 1 d'
  | written {text : String} {p : Program} {object : Object} {d' : Directory} {file : Path} :
    Accepts d o text p object → Listed d o d' → d.file? o.output = some file →
    Ends d o 0 (d'.put file ⟨(image object.code.toList).toArray⟩)

section
variable {d d' : Directory} {o : Options}

theorem Refuses.not_accepts (h : Refuses d o) {text : String} {p : Program} {object : Object} :
    ¬ Accepts d o text p object := by
  intro ha
  cases h with
  | unread hread => cases ha.read.symm.trans hread
  | invalid hread hcompile =>
    cases ha.read.symm.trans hread
    cases ha.compiled.symm.trans hcompile
  | denied hread hcompile hdeny hwarn =>
    cases ha.read.symm.trans hread
    cases ha.compiled.symm.trans hcompile
    exact hwarn (ha.allowed hdeny)

theorem Listed.file? (h : Listed d o d') (path : String) : d'.file? path = d.file? path := by
  cases h with
  | skipped => rfl
  | written => exact d.file?_put ..

theorem Listed.places (h : Listed d o d') : d'.path = d.path ∧ d'.dirs = d.dirs := by
  cases h <;> exact ⟨rfl, rfl⟩

theorem Listed.lookup (h : Listed d o d') {file : Path}
    (hfile : ∀ path, o.listing = some path → d.file? path ≠ some file) :
    d'.files.lookup file = d.files.lookup file := by
  cases h with
  | skipped => rfl
  | written hlisting hpath =>
    rw [d.lookup_put, if_neg]
    rintro rfl
    exact hfile _ hlisting hpath

theorem ends_object {text : String} {p : Program} {object : Object} {out message : String}
    (ha : Accepts d o text p object) (hlisted : Listed d o d') :
    let outcome := perform d' out 0
      [.write o.output ⟨(image object.code.toList).toArray⟩, .print message]
    Ends d o outcome.status outcome.directory := by
  intro outcome
  have hfile := hlisted.file? o.output
  cases houtput : d.file? o.output with
  | none =>
    obtain ⟨hstatus, hdir⟩ := perform_write_of_none (hfile.trans houtput)
    rw [hstatus, hdir]
    exact .unwritten ha hlisted houtput
  | some file =>
    rw [show outcome = _ from perform_write (hfile.trans houtput)]
    exact .written ha hlisted houtput

theorem ends_outputActions {text : String} {p : Program} {object : Object} {out : String}
    (ha : Accepts d o text p object) :
    let outcome := perform d out 0 (o.outputActions p object)
    Ends d o outcome.status outcome.directory := by
  simp only [Options.outputActions, List.append_assoc]
  have hdump : ∀ a ∈ if o.dump then [Action.print (object.dump p)] else [], ∃ text,
      a = .print text := by
    split <;> simp
  obtain ⟨out', hprints⟩ := perform_prints hdump
  rw [hprints]
  cases hlisting : o.listing with
  | none => exact ends_object ha (.skipped hlisting)
  | some path =>
    cases hpath : d.file? path with
    | none =>
      obtain ⟨hstatus, hdir⟩ := perform_write_of_none hpath
      simp only [List.cons_append]
      rw [hstatus, hdir]
      exact .unlisted ha hlisting hpath
    | some file =>
      simp only [List.cons_append]
      rw [perform_write hpath]
      exact ends_object ha (.written hlisting hpath)

end

theorem ends_run (d : Directory) {args : List String} {o : Options}
    (h : Options.ofArguments? args = some o) :
    Ends d o (run d args).status (run d args).directory := by
  rw [run, h]
  simp only
  cases hread : d.readText o.input with
  | error e => exact .refused (.unread hread)
  | ok text =>
    simp only [Options.plan]
    cases hcompile : compile text with
    | error e => exact .refused (.invalid hread hcompile)
    | ok result =>
      obtain ⟨p, object⟩ := result
      have hwarnings : ∀ a ∈ Options.warningActions object.warnings.toList, ∃ text,
          a = .print text := by
        simp [Options.warningActions]
      simp only
      split
      · next hdeny =>
        obtain ⟨out, hprints⟩ := perform_prints hwarnings
        rw [hprints]
        simp only [Bool.and_eq_true, Bool.not_eq_true', List.isEmpty_eq_false_iff,
          Array.toList_eq_nil_iff, ne_eq] at hdeny
        exact .refused (.denied hread hcompile hdeny.1 hdeny.2)
      · next hallow =>
        obtain ⟨out, hprints⟩ := perform_prints hwarnings
        rw [hprints]
        refine ends_outputActions ⟨hread, hcompile, fun hdeny => ?_⟩
        simpa [hdeny] using hallow

namespace Ends
variable {d d' : Directory} {o : Options} {status : UInt32}

theorem of_refuses (h : Ends d o status d') (hr : Refuses d o) : status = 1 ∧ d' = d := by
  cases h with
  | refused => exact ⟨rfl, rfl⟩
  | unlisted ha => exact absurd ha hr.not_accepts
  | unwritten ha => exact absurd ha hr.not_accepts
  | written ha => exact absurd ha hr.not_accepts

theorem output_of_zero (h : Ends d o 0 d') : ∃ text p object content,
    Accepts d o text p object ∧ d'.read o.output = .ok content ∧
    ∀ s : ByteStream, s.Delivers content.data.toList → s.program = .ok object.code.toList := by
  generalize hstatus : (0 : UInt32) = status at h
  cases h with
  | refused => cases hstatus
  | unlisted => cases hstatus
  | unwritten => cases hstatus
  | written ha hlisted houtput =>
    refine ⟨_, _, _, _, ha, Directory.read_put _ ((hlisted.file? _).trans houtput), ?_⟩
    intro s hs
    rw [ByteStream.program_eq_whole hs, List.toList_toArray, program_image]

/-- Only a run that cannot write the output file leaves another listing, and then there is no
output file, before or after. -/
theorem output_of_ne_zero (h : Ends d o status d') (hstatus : status ≠ 0) :
    (d'.read o.output).toOption = (d.read o.output).toOption := by
  cases h with
  | refused => rfl
  | unlisted => rfl
  | unwritten _ hlisted houtput =>
    rw [d'.toOption_read, d.toOption_read, hlisted.file?, houtput]
    rfl
  | written => exact absurd rfl hstatus

theorem places (h : Ends d o status d') : d'.path = d.path ∧ d'.dirs = d.dirs := by
  cases h with
  | refused => exact ⟨rfl, rfl⟩
  | unlisted => exact ⟨rfl, rfl⟩
  | unwritten _ hlisted => exact hlisted.places
  | written _ hlisted => exact hlisted.places

theorem lookup (h : Ends d o status d') {file : Path} (houtput : d.file? o.output ≠ some file)
    (hlisting : ∀ path, o.listing = some path → d.file? path ≠ some file) :
    d'.files.lookup file = d.files.lookup file := by
  cases h with
  | refused => rfl
  | unlisted => rfl
  | unwritten _ hlisted => exact hlisted.lookup hlisting
  | written _ hlisted hfile =>
    rw [Directory.lookup_put, if_neg, hlisted.lookup hlisting]
    rintro rfl
    exact houtput hfile

theorem status_eq_zero_iff (h : Ends d o status d') :
    status = 0 ↔ (∃ text p object, Accepts d o text p object) ∧
      (∀ path, o.listing = some path → ∃ file, d.file? path = some file) ∧
      ∃ file, d.file? o.output = some file := by
  cases h with
  | refused hr =>
    refine iff_of_false (by decide) ?_
    rintro ⟨⟨text, p, object, ha⟩, -⟩
    exact hr.not_accepts ha
  | unlisted _ hlisting hpath =>
    refine iff_of_false (by decide) ?_
    rintro ⟨-, hfiles, -⟩
    obtain ⟨file, hfile⟩ := hfiles _ hlisting
    cases hpath.symm.trans hfile
  | unwritten _ _ houtput =>
    refine iff_of_false (by decide) ?_
    rintro ⟨-, -, file, hfile⟩
    cases houtput.symm.trans hfile
  | written ha hlisted houtput =>
    refine iff_of_true rfl ⟨⟨_, _, _, ha⟩, fun path hpath => ?_, _, houtput⟩
    cases hlisted with
    | skipped hnone => cases hnone.symm.trans hpath
    | written hsome hfile =>
      cases hsome.symm.trans hpath
      exact ⟨_, hfile⟩

end Ends

/-- A run that refuses the source changes nothing. A successful run leaves an output file that
reads as the code of the text at the start, whatever other files the output path names. A run that
fails leaves the output file as it was, and no run touches other files than the two it is given. -/
theorem run_leaves_no_wrong_artifact (d : Directory) {args : List String} {o : Options}
    (h : Options.ofArguments? args = some o) :
    (Refuses d o → (run d args).status = 1 ∧ (run d args).directory = d) ∧
    ((run d args).status = 0 → ∃ text p object content, Accepts d o text p object ∧
      (run d args).directory.read o.output = .ok content ∧
      ∀ s : ByteStream, s.Delivers content.data.toList → s.program = .ok object.code.toList) ∧
    ((run d args).status ≠ 0 →
      ((run d args).directory.read o.output).toOption = (d.read o.output).toOption) ∧
    ((run d args).directory.path = d.path ∧ (run d args).directory.dirs = d.dirs) ∧
    (∀ file, d.file? o.output ≠ some file →
      (∀ path, o.listing = some path → d.file? path ≠ some file) →
      (run d args).directory.files.lookup file = d.files.lookup file) ∧
    ((run d args).status = 0 ↔ (∃ text p object, Accepts d o text p object) ∧
      (∀ path, o.listing = some path → ∃ file, d.file? path = some file) ∧
      ∃ file, d.file? o.output = some file) :=
  have hends := ends_run d h
  ⟨hends.of_refuses, fun h0 => (h0 ▸ hends).output_of_zero, hends.output_of_ne_zero, hends.places,
    fun _ houtput hlisting => hends.lookup houtput hlisting, hends.status_eq_zero_iff⟩

/-- A program without a function to start from, which is a warning. -/
def uncalledText : String := "func f() \x7b \x7d"

/-- A directory below the root with one file, the source. -/
def sourceDirectory : Directory := ⟨["work"], [["work"]], [(["work", "x"], uncalledText.toUTF8)]⟩

/-- Source, listing and output in one file, by three paths: the object file is what stays, and
nothing changes where warnings are denied. -/
theorem run_leaves_no_wrong_artifact_aliased :
    let args := ["x", "-o", "/work/x", "-l../work/x"]
    Options.ofArguments? args = some ⟨"x", "/work/x", some "../work/x", false, false⟩ ∧
    Options.ofArguments? ("-W" :: args) = some ⟨"x", "/work/x", some "../work/x", false, true⟩ ∧
    (run sourceDirectory args).status = 0 ∧
    (∃ p object content, compile uncalledText = .ok (p, object) ∧
      (run sourceDirectory args).directory.read "/work/x" = .ok content ∧
      ∀ s : ByteStream, s.Delivers content.data.toList → s.program = .ok object.code.toList) ∧
    (run sourceDirectory ("-W" :: args)).status = 1 ∧
    (run sourceDirectory ("-W" :: args)).directory = sourceDirectory := by
  intro args
  have hargs : Options.ofArguments? args =
      some ⟨"x", "/work/x", some "../work/x", false, false⟩ := by
    decide +kernel
  have hdeny : Options.ofArguments? ("-W" :: args) =
      some ⟨"x", "/work/x", some "../work/x", false, true⟩ := by
    decide +kernel
  have hlisting : sourceDirectory.file? "../work/x" = some ["work", "x"] := by decide +kernel
  have houtput : sourceDirectory.file? "/work/x" = some ["work", "x"] := by decide +kernel
  have hread : sourceDirectory.readText "x" = .ok uncalledText := Directory.readText_of_read rfl
  obtain ⟨p, object, hcompile, heval⟩ := Program.exists_compile_of_eval uncalledText
    (fun (_, object) => !object.warnings.isEmpty) (by decide +kernel)
  obtain ⟨-, hzero, -, -, -, hstatus⟩ := run_leaves_no_wrong_artifact sourceDirectory hargs
  have hsuccess := hstatus.2 ⟨⟨_, p, object, hread, hcompile, fun h => by cases h⟩,
    fun path hpath => ⟨["work", "x"], Option.some.inj hpath ▸ hlisting⟩, _, houtput⟩
  obtain ⟨text, p', object', content, ha, hcontent, hdecode⟩ := hzero hsuccess
  cases hread.symm.trans ha.read
  refine ⟨hargs, hdeny, hsuccess, ⟨p', object', content, ha.compiled, hcontent, hdecode⟩, ?_⟩
  have hwarnings : object.warnings ≠ #[] := by simpa using heval
  exact (run_leaves_no_wrong_artifact sourceDirectory hdeny).1
    (.denied hread hcompile rfl hwarnings)

end PrimeLang.Command
