import CssVendor.CommandLine
import CssVendor.Proofs.Isolation
import CssVendor.Proofs.SheetRun

/-!
# All or nothing

A run of the program has three things to get right before it writes: the
options, the input and the sheet. `Complaint` says for each of them, whatever
comes of the others, when it is wrong and what is then to be said about it.

The earliest complaint is the one that is made, and with it nothing but reading
has happened. Without a complaint there is a text, and it is written in one
piece. What is written does not depend on what the options say: they have to be
read without fault, and the filler never looks at them.

All of this holds over any store of files, whatever reading and writing do in
it. So two paths may well name one file.
-/

namespace CssVendor

/-! ## The sheet -/

section Generate

variable [Sheet.Validator] {css : String}

/-- A text that is a sheet is made into one text, whatever the options. -/
theorem exists_generate_of_parse {t : Block} {records : List Record}
    (h : Sheet.parse css = .ok (t, records)) (layout : Layout) :
    ∃ text, ∀ options, (generate css options layout).1 = .ok text := by
  refine ⟨(Plugin.runAll [.register .default] t).tree.print layout,
    fun options => ?_⟩
  have hfillers : ∀ p ∈ [Plugin.register options], p.IsFiller := by
    intro p hp
    exact ⟨_, List.mem_singleton.1 hp⟩
  have hresult := (Plugin.runAll_sheet hfillers (Sheet.tidySheet_of_parse h)).1
  have htree := (Plugin.runAll_fresh [.register options] t).2.1
  have hfresh : [Plugin.register options].map Plugin.fresh =
      [.register .default] := rfl
  rw [hfresh] at htree
  simp only [generate, Compiler.compile, Compiler.add, Compiler.setLayout,
    Compiler.new, List.nil_append, h, hresult, htree]
  rfl

/-- A text that is no sheet is reported. -/
theorem generate_of_parse_error {reason : String}
    (h : Sheet.parse css = .error (.malformedSheet reason)) (options : Options)
    (layout : Layout) :
    (generate css options layout).1 = .error (.malformedSheet reason) := by
  simp only [generate, Compiler.compile, h]

end Generate

namespace CommandLine

/-! ## What can be wrong -/

/-- What has to succeed before anything is written, in order. -/
inductive Stage
  | options
  | input
  | sheet
  deriving DecidableEq, Repr

namespace Stage

/-- The place of a stage in their order. -/
def place : Stage → Nat
  | options => 0
  | input => 1
  | sheet => 2

/-- The paths that are read up to a stage. -/
def paths (a : Arguments) : Stage → List String
  | options => a.options.toList
  | input | sheet => a.options.toList ++ [a.input]

end Stage

/-- What is wrong at a stage and how the user is told, where `read` says what is
found at a path. What is said of a sheet are the words of the validator. -/
inductive Complaint [Sheet.Validator] (read : String → Entry) (a : Arguments) :
    Stage → String → Prop
  | unreadableOptions {path reason : String} (hpath : a.options = some path)
      (hread : (read path).text = .error reason) :
      Complaint read a .options ("failed to read " ++ path)
  | malformedOptions {path json : String} (hpath : a.options = some path)
      (hread : (read path).text = .ok json)
      (hjson : (Json.read? json).bind Options.ofValue? = none) :
      Complaint read a .options "invalid plugin options"
  | unreadableInput {reason : String}
      (hread : (read a.input).text = .error reason) :
      Complaint read a .input ("reading " ++ a.input ++ ": " ++ reason)
  | malformedSheet {css reason : String} (hread : (read a.input).text = .ok css)
      (hparse : Sheet.parse css = .error (.malformedSheet reason)) :
      Complaint read a .sheet ("failed to parse stylesheet: " ++ reason)

/-! ## One step after another -/

section

variable {σ α β : Type} {s s' : Session σ} {message : String}

namespace Session

/-- The session after files have been read. -/
def logReads (s : Session σ) (paths : List String) : Session σ :=
  { s with events := s.events ++ paths.map .read }

theorem logReads_nil (s : Session σ) : s.logReads [] = s := by
  rw [logReads, List.map_nil, List.append_nil]

theorem logReads_append (s : Session σ) (paths paths' : List String) :
    s.logReads (paths ++ paths') = (s.logReads paths).logReads paths' := by
  simp [logReads]

/-- Reading is not heard of. -/
theorem stdout_logReads (s : Session σ) (paths : List String) :
    (s.logReads paths).stdout = s.stdout := by
  have hreads : (paths.map Event.read).filterMap Event.printed? = [] := by
    simp [Event.printed?]
  rw [stdout, logReads, List.filterMap_append, hreads, List.append_nil, stdout]

theorem stderr_logReads (s : Session σ) (paths : List String) :
    (s.logReads paths).stderr = s.stderr := by
  have hreads : (paths.map Event.read).filterMap Event.complained? = [] := by
    simp [Event.complained?]
  rw [stderr, logReads, List.filterMap_append, hreads, List.append_nil, stderr]

theorem stdout_log (s : Session σ) (event : Event) :
    (s.log event).stdout = s.stdout ++ event.printed?.getD "" := by
  rw [stdout, log, List.filterMap_append, String.join_append, stdout]
  cases event <;> simp [Event.printed?, List.filterMap_cons]

theorem stderr_log (s : Session σ) (event : Event) :
    (s.log event).stderr = s.stderr ++ event.complained?.getD "" := by
  rw [stderr, log, List.filterMap_append, String.join_append, stderr]
  cases event <;> simp [Event.complained?, List.filterMap_cons]

end Session

theorem run_liftM_bind (x : StateM (Session σ) α)
    (f : α → ExceptT String (StateM (Session σ)) β) :
    ((liftM x : ExceptT String (StateM (Session σ)) α) >>= f).run.run s =
      (f (x.run s).1).run.run (x.run s).2 := rfl

theorem run_bind_of_ok {x : ExceptT String (StateM (Session σ)) α} {a : α}
    (h : x.run.run s = (.ok a, s'))
    (f : α → ExceptT String (StateM (Session σ)) β) :
    (x >>= f).run.run s = (f a).run.run s' := by
  rw [ExceptT.run_bind, StateT.run_bind, h]
  rfl

theorem run_bind_of_error {x : ExceptT String (StateM (Session σ)) α}
    (h : x.run.run s = (.error message, s'))
    (f : α → ExceptT String (StateM (Session σ)) β) :
    (x >>= f).run.run s = (.error message, s') := by
  rw [ExceptT.run_bind, StateT.run_bind, h]
  rfl

end

section

variable {σ : Type} {store : Store σ} {s : Session σ}

theorem run_read (path : String) :
    (store.system.read path).run s =
      (store.read s.files path, s.logReads [path]) := rfl

theorem run_write_of_ok {path text : String}
    (h : (store.write s.files path text).2 = none) :
    (store.system.write path text).run s =
      (none, { s with files := (store.write s.files path text).1 }.log
        (.write path text)) := by
  rcases hwrite : store.write s.files path text with ⟨files, _ | reason⟩
  · simp only [Store.system, StateT.run_modifyGet, hwrite]
    rfl
  · rw [hwrite] at h
    cases h

theorem run_readOptions_some (path : String) :
    (store.system.readOptions (some path)).run.run s =
      ((Options.readEntry path (store.read s.files path)).mapError
        Fault.message, s.logReads [path]) := by
  rw [System.readOptions, run_liftM_bind, run_read]
  cases Options.readEntry path (store.read s.files path) <;> rfl

theorem run_readInput (path : String) :
    (store.system.readInput path).run.run s =
      ((store.read s.files path).text.mapError fun reason =>
        "reading " ++ path ++ ": " ++ reason, s.logReads [path]) := by
  rw [System.readInput, run_liftM_bind, run_read]
  cases (store.read s.files path).text <;> rfl

theorem run_deliver_stdout (text : String) :
    (store.system.deliver text none).run.run s =
      (.ok (), s.log (.print text)) := rfl

theorem run_deliver_file {path text : String}
    (h : (store.write s.files path text).2 = none) :
    (store.system.deliver text (some path)).run.run s =
      (.ok (), { s with files := (store.write s.files path text).1 }.log
        (.write path text)) := by
  rw [System.deliver, run_liftM_bind, run_write_of_ok h]
  rfl

end

/-! ## The stages of a run -/

section

variable {σ : Type} [Sheet.Validator] {store : Store σ} {s s' : Session σ}
  {a : Arguments} {message : String}

theorem readEntry_of_complaint {read : String → Entry} {path : String}
    (hpath : a.options = some path)
    (h : Complaint read a .options message) :
    (Options.readEntry path (read path)).mapError Fault.message =
      .error message := by
  cases h with
  | unreadableOptions hpath' hread =>
      rw [hpath, Option.some.injEq] at hpath'
      subst hpath'
      simp only [Options.readEntry, hread]
      rfl
  | malformedOptions hpath' hread hjson =>
      rw [hpath, Option.some.injEq] at hpath'
      subst hpath'
      simp only [Options.readEntry, hread, Options.read, hjson]
      rfl

theorem exists_readEntry {read : String → Entry} {path : String}
    (hpath : a.options = some path)
    (h : ∀ message, ¬ Complaint read a .options message) :
    ∃ options, Options.readEntry path (read path) = .ok options := by
  cases hread : (read path).text with
  | error reason => exact absurd (.unreadableOptions hpath hread) (h _)
  | ok json =>
      cases hjson : (Json.read? json).bind Options.ofValue? with
      | none => exact absurd (.malformedOptions hpath hread hjson) (h _)
      | some options =>
          exact ⟨options, by
            simp only [Options.readEntry, hread, Options.read, hjson]⟩

theorem not_complaint_options {read : String → Entry}
    (hpath : a.options = none) : ¬ Complaint read a .options message := by
  intro h
  cases h with
  | unreadableOptions hpath' | malformedOptions hpath' =>
      rw [hpath] at hpath'
      cases hpath'

theorem run_readOptions_of_complaint
    (h : Complaint (store.read s.files) a .options message) :
    (store.system.readOptions a.options).run.run s =
      (.error message, s.logReads a.options.toList) := by
  cases hpath : a.options with
  | none => exact absurd h (not_complaint_options hpath)
  | some path =>
      rw [run_readOptions_some, readEntry_of_complaint hpath h]
      rfl

theorem exists_run_readOptions
    (h : ∀ message, ¬ Complaint (store.read s.files) a .options message) :
    ∃ options, (store.system.readOptions a.options).run.run s =
      (.ok options, s.logReads a.options.toList) := by
  cases hpath : a.options with
  | none =>
      refine ⟨.default, ?_⟩
      rw [Option.toList_none, Session.logReads_nil]
      rfl
  | some path =>
      obtain ⟨options, hoptions⟩ := exists_readEntry hpath h
      refine ⟨options, ?_⟩
      rw [run_readOptions_some, hoptions]
      rfl

theorem run_readInput_of_complaint
    (h : Complaint (store.read s.files) a .input message) :
    (store.system.readInput a.input).run.run s =
      (.error message, s.logReads [a.input]) := by
  cases h with
  | unreadableInput hread =>
      rw [run_readInput, hread]
      rfl

theorem exists_text {read : String → Entry}
    (h : ∀ message, ¬ Complaint read a .input message) :
    ∃ css, (read a.input).text = .ok css := by
  cases hread : (read a.input).text with
  | error reason => exact absurd (.unreadableInput hread) (h _)
  | ok css => exact ⟨css, rfl⟩

theorem exists_generate {read : String → Entry} {css : String}
    (hread : (read a.input).text = .ok css)
    (h : ∀ message, ¬ Complaint read a .sheet message) :
    ∃ text, ∀ options, (generate css options a.layout).1 = .ok text := by
  cases hparse : Sheet.parse css with
  | ok r => exact exists_generate_of_parse hparse a.layout
  | error fault =>
      obtain rfl := Sheet.fault_of_parse hparse
      exact absurd (.malformedSheet hread hparse) (h _)

/-! ## The whole run -/

theorem run_of_perform_ok
    (h : (store.system.perform a).run.run s = (.ok (), s')) :
    (store.system.run a).run s = (0, s') := by
  rw [System.run, StateT.run_bind, h]
  rfl

theorem run_of_perform_error
    (h : (store.system.perform a).run.run s = (.error message, s')) :
    (store.system.run a).run s =
      (1, s'.log (.complain ("prefixly: " ++ message ++ "\n"))) := by
  rw [System.run, StateT.run_bind, h]
  rfl

/-- A complaint about the options ends the run. -/
theorem run_perform_of_options
    (h : Complaint (store.read s.files) a .options message) :
    (store.system.perform a).run.run s =
      (.error message, s.logReads (Stage.options.paths a)) :=
  run_bind_of_error (run_readOptions_of_complaint h) _

/-- A complaint about the input ends the run, if there is none about the
options. -/
theorem run_perform_of_input
    (hoptions : ∀ message, ¬ Complaint (store.read s.files) a .options message)
    (h : Complaint (store.read s.files) a .input message) :
    (store.system.perform a).run.run s =
      (.error message, s.logReads (Stage.input.paths a)) := by
  obtain ⟨options, hrun⟩ := exists_run_readOptions hoptions
  rw [System.perform, run_bind_of_ok hrun, Stage.paths, Session.logReads_append]
  exact run_bind_of_error
    (run_readInput_of_complaint (s := s.logReads a.options.toList) h) _

/-- Once the options and the input have been read, it is up to the sheet. -/
theorem exists_run_perform {css : String}
    (hoptions : ∀ message, ¬ Complaint (store.read s.files) a .options message)
    (hread : (store.read s.files a.input).text = .ok css) :
    ∃ options, (store.system.perform a).run.run s =
      (store.system.conclude a.output
        (generate css options a.layout).1).run.run
          (s.logReads (Stage.sheet.paths a)) := by
  obtain ⟨options, hrun⟩ := exists_run_readOptions hoptions
  refine ⟨options, ?_⟩
  have hinput : (store.system.readInput a.input).run.run
      (s.logReads a.options.toList) =
        (.ok css, (s.logReads a.options.toList).logReads [a.input]) := by
    rw [run_readInput,
      show (s.logReads a.options.toList).files = s.files from rfl, hread]
    rfl
  rw [System.perform, run_bind_of_ok hrun, run_bind_of_ok hinput, Stage.paths,
    Session.logReads_append]

/-- A complaint about the sheet ends the run, if there is no other. -/
theorem run_perform_of_sheet
    (hoptions : ∀ message, ¬ Complaint (store.read s.files) a .options message)
    (h : Complaint (store.read s.files) a .sheet message) :
    (store.system.perform a).run.run s =
      (.error message, s.logReads (Stage.sheet.paths a)) := by
  cases h with
  | malformedSheet hread hparse =>
      obtain ⟨options, hrun⟩ := exists_run_perform hoptions hread
      rw [hrun, generate_of_parse_error hparse]
      rfl

/-- The earliest complaint ends the run. -/
theorem run_perform_of_complaint {stage : Stage}
    (h : Complaint (store.read s.files) a stage message)
    (hearliest : ∀ earlier m, Complaint (store.read s.files) a earlier m →
      stage.place ≤ earlier.place) :
    (store.system.perform a).run.run s =
      (.error message, s.logReads (stage.paths a)) := by
  cases stage with
  | options => exact run_perform_of_options h
  | input =>
      refine run_perform_of_input (fun m hm => ?_) h
      exact absurd (hearliest _ m hm) (by decide)
  | sheet =>
      refine run_perform_of_sheet (fun m hm => ?_) h
      exact absurd (hearliest _ m hm) (by decide)

/-- Without a complaint there is one text to write, whatever the options. -/
theorem run_perform_of_no_complaint
    (h : ∀ stage message, ¬ Complaint (store.read s.files) a stage message) :
    ∃ css text, (store.read s.files a.input).text = .ok css ∧
      (∀ options, (generate css options a.layout).1 = .ok text) ∧
      (store.system.perform a).run.run s =
        (store.system.deliver text a.output).run.run
          (s.logReads (Stage.sheet.paths a)) := by
  obtain ⟨css, hread⟩ := exists_text (h .input)
  obtain ⟨text, htext⟩ := exists_generate hread (h .sheet)
  obtain ⟨options, hrun⟩ := exists_run_perform (h .options) hread
  refine ⟨css, text, hread, htext, ?_⟩
  rw [hrun, htext options]
  rfl

end

/-- A run makes the earliest complaint there is, and has done nothing but read
before it: the exit code is 1, the standard output is empty, and the files are
as they were. If there is nothing to complain of, the input is a sheet, and the
one text that it is made into, whatever the options, is written in one piece:
to the standard output, or to the output path, if that can be written. Then the
exit code is 0, and nothing else has been done to the files. -/
theorem all_or_nothing [Sheet.Validator] {σ : Type} (store : Store σ)
    (files : σ) (a : Arguments) :
    (∀ stage message, Complaint (store.read files) a stage message →
      (∀ earlier m, Complaint (store.read files) a earlier m →
        stage.place ≤ earlier.place) →
      ∃ s, store.run files a = (1, s) ∧ s.files = files ∧
        s.stdout = "" ∧ s.stderr = "prefixly: " ++ message ++ "\n" ∧
        s.events = (stage.paths a).map .read ++
          [.complain ("prefixly: " ++ message ++ "\n")]) ∧
    ((∀ stage message, ¬ Complaint (store.read files) a stage message) →
      ∃ css text, (store.read files a.input).text = .ok css ∧
        (∀ options, (generate css options a.layout).1 = .ok text) ∧
        (a.output = none →
          ∃ s, store.run files a = (0, s) ∧ s.files = files ∧
            s.stdout = text ∧ s.stderr = "" ∧
            s.events = (Stage.sheet.paths a).map .read ++ [.print text]) ∧
        ∀ path, a.output = some path →
          (store.write files path text).2 = none →
          ∃ s, store.run files a = (0, s) ∧
            s.files = (store.write files path text).1 ∧
            s.stdout = "" ∧ s.stderr = "" ∧
            s.events = (Stage.sheet.paths a).map .read ++
              [.write path text]) := by
  constructor
  · intro stage message hcomplaint hearliest
    have hrun := run_of_perform_error
      (run_perform_of_complaint (s := ⟨files, []⟩) hcomplaint hearliest)
    refine ⟨_, hrun, rfl, ?_, ?_, rfl⟩
    · rw [Session.stdout_log, Session.stdout_logReads]
      rfl
    · rw [Session.stderr_log, Session.stderr_logReads]
      exact String.empty_append
  · intro hnone
    obtain ⟨css, text, hread, htext, hperform⟩ :=
      run_perform_of_no_complaint (s := ⟨files, []⟩) hnone
    refine ⟨css, text, hread, htext, fun hout => ?_, fun path hout hwrite => ?_⟩
    · rw [hout, run_deliver_stdout] at hperform
      refine ⟨_, run_of_perform_ok hperform, rfl, ?_, ?_, rfl⟩
      · rw [Session.stdout_log, Session.stdout_logReads]
        exact String.empty_append
      · rw [Session.stderr_log, Session.stderr_logReads]
        rfl
    · rw [hout, run_deliver_file hwrite] at hperform
      change _ = (_, (Session.logReads ⟨(store.write files path text).1, []⟩
        (Stage.sheet.paths a)).log (.write path text)) at hperform
      refine ⟨_, run_of_perform_ok hperform, rfl, ?_, ?_, rfl⟩
      · rw [Session.stdout_log, Session.stdout_logReads]
        rfl
      · rw [Session.stderr_log, Session.stderr_logReads]
        rfl

/-- Options that are no JSON and an input that is not there: the options are
complained of, and the output file stays as it was. With options that can be
read, a sheet is written over itself. -/
theorem all_or_nothing_aliased :
    let files : Files := ⟨fun path =>
      if path == "a" then .ofText "p\x7bcolor:red"
      else if path == "o" then .ofText "[" else .missing, fun _ => none⟩
    (∃ s, Files.store.run files ⟨"b", some "a", some "o", true⟩ = (1, s) ∧
      s.files = files ∧ s.stderr = "prefixly: invalid plugin options\n") ∧
    ∃ s text, Files.store.run files ⟨"a", some "a", none, true⟩ = (0, s) ∧
      s.files = files.put "a" text ∧
      s.events = [.read "a", .write "a" text] := by
  intro files
  have hsheet : (files.entry "a").text = .ok "p\x7bcolor:red" :=
    Entry.text_ofText _
  constructor
  · obtain ⟨hfailed, -⟩ :=
      all_or_nothing Files.store files ⟨"b", some "a", some "o", true⟩
    have hcomplaint : Complaint files.entry ⟨"b", some "a", some "o", true⟩
        .options "invalid plugin options" :=
      .malformedOptions rfl (Entry.text_ofText "[") (by rfl)
    obtain ⟨s, hrun, hfiles, -, hstderr, -⟩ :=
      hfailed .options _ hcomplaint fun _ _ _ => Nat.zero_le _
    exact ⟨s, hrun, hfiles, hstderr⟩
  · obtain ⟨-, hdone⟩ :=
      all_or_nothing Files.store files ⟨"a", some "a", none, true⟩
    have hnone : ∀ stage message,
        ¬ Complaint files.entry ⟨"a", some "a", none, true⟩ stage message := by
      intro stage message hcomplaint
      cases hcomplaint with
      | unreadableOptions hpath | malformedOptions hpath => cases hpath
      | unreadableInput hread =>
          rw [hsheet] at hread
          cases hread
      | malformedSheet hread hparse =>
          rw [hsheet] at hread
          cases hread
          rw [Sheet.parse, if_pos (by decide +kernel)] at hparse
          cases hparse
    obtain ⟨css, text, -, -, -, hwritten⟩ := hdone hnone
    obtain ⟨s, hrun, hfiles, -, -, hevents⟩ := hwritten "a" rfl rfl
    exact ⟨s, text, hrun, hfiles, hevents⟩

end CommandLine

end CssVendor
