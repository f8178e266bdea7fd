import CssVendor.Compiler
import CssVendor.Entry
import CssVendor.Options.Reader

/-!
# The command line

What the program does with its arguments: the options are read first, then the
sheet, then the sheet is filled in, and only then is anything written. The
first step that fails is reported.

The program is one body, `System.run`, over what it asks of the system around
it and of the validator. Run in the system itself, it is the program; run in a
store of files, it says what becomes of the files and what was done in which
order.
-/

namespace CssVendor.CommandLine

/-! ## Arguments -/

/-- What the arguments ask for. -/
structure Arguments where
  input : String
  /-- Where to write. The standard output, if left out. -/
  output : Option String
  options : Option String
  minify : Bool
  deriving DecidableEq, Repr, Inhabited

/-- Arguments sorted by what they are. -/
structure Sorted where
  paths : List String
  options : Option String
  minify : Bool
  deriving DecidableEq, Repr, Inhabited

/-- What follows an argument's `--options=`, if it begins so. -/
def optionsValue? (argument : String) : Option String :=
  let name := "--options=".toList
  if name.isPrefixOf argument.toList then
    some (String.ofList (argument.toList.drop name.length))
  else none

/-- Sorts arguments. Behind `--`, each is a path. An option must not be given
twice. -/
def sort : List String → Option Sorted
  | [] => some ⟨[], none, false⟩
  | "--" :: rest => some ⟨rest, none, false⟩
  | "--minify" :: rest => do
      let s ← sort rest
      if s.minify then none else return { s with minify := true }
  | "--options" :: path :: rest => do
      let s ← sort rest
      if s.options.isSome then none else return { s with options := some path }
  | argument :: rest => do
      let s ← sort rest
      match optionsValue? argument with
      | some path =>
          if s.options.isSome then none
          else return { s with options := some path }
      | none =>
          if argument != "-" && argument.toList.head? == some '-' then none
          else return { s with paths := argument :: s.paths }

/-- Reads arguments: an input path, possibly an output path, and options. -/
def Arguments.read (arguments : List String) : Option Arguments := do
  let s ← sort arguments
  match s.paths with
  | [input] => return ⟨input, none, s.options, s.minify⟩
  | [input, output] => return ⟨input, some output, s.options, s.minify⟩
  | _ => none

/-- How the sheet is to be written. -/
def Arguments.layout (a : Arguments) : Layout :=
  if a.minify then .compact else .pretty

/-! ## The program -/

/-- What the program asks of the system around it. -/
structure System (m : Type → Type) where
  /-- What is found at a path. -/
  read : String → m Entry
  /-- Makes a file of a text, or gives a reason why it cannot. -/
  write : (path text : String) → m (Option String)
  /-- Writes to the standard output. -/
  print : String → m Unit
  /-- Writes to the standard error output. -/
  complain : String → m Unit

namespace System

variable {m : Type → Type} [Monad m] [Sheet.Validator] (sys : System m)

/-- The options from a path, if one is given. -/
def readOptions : Option String → ExceptT String m Options
  | none => return .default
  | some path => do
      match Options.readEntry path (← sys.read path) with
      | .ok options => return options
      | .error fault => throw fault.message

/-- The text of the input. -/
def readInput (path : String) : ExceptT String m String := do
  match (← sys.read path).text with
  | .ok css => return css
  | .error reason => throw ("reading " ++ path ++ ": " ++ reason)

/-- Writes a text to where it is to go. -/
def deliver (text : String) : Option String → ExceptT String m Unit
  | none => sys.print text
  | some path => do
      match ← sys.write path text with
      | none => return ()
      | some reason => throw ("writing " ++ path ++ ": " ++ reason)

/-- Writes what the sheet was made into, if it was one. -/
def conclude (output : Option String) :
    Except Fault String → ExceptT String m Unit
  | .ok text => sys.deliver text output
  | .error fault => throw fault.message

/-- What the arguments ask for, up to the first step that fails. -/
def perform (a : Arguments) : ExceptT String m Unit := do
  let options ← sys.readOptions a.options
  let css ← sys.readInput a.input
  sys.conclude a.output (generate css options a.layout).1

/-- Runs the program: the exit code. -/
def run (a : Arguments) : m Nat := do
  match ← (sys.perform a).run with
  | .ok () => return 0
  | .error message =>
      sys.complain ("prefixly: " ++ message ++ "\n")
      return 1

end System

/-! ## Runs over a store -/

/-- Files that a run finds and leaves, of whatever kind. -/
structure Store (σ : Type) where
  /-- What is found at a path. -/
  read : σ → (path : String) → Entry
  /-- The files after an attempt to write one, and why it failed if it did. -/
  write : σ → (path text : String) → σ × Option String

/-- Something that a run has done. -/
inductive Event
  | read (path : String)
  | write (path text : String)
  | print (text : String)
  | complain (text : String)
  deriving DecidableEq, Repr, Inhabited

namespace Event

/-- What is written to the standard output. -/
def printed? : Event → Option String
  | .print text => some text
  | _ => none

/-- What is written to the standard error output. -/
def complained? : Event → Option String
  | .complain text => some text
  | _ => none

/-- The path and the text of the file that is written. -/
def written? : Event → Option (String × String)
  | .write path text => some (path, text)
  | _ => none

end Event

/-- How far a run over a store has come. -/
structure Session (σ : Type) where
  files : σ
  /-- What has been done, in order. A failed attempt to write leaves no
  trace but in the files. -/
  events : List Event

namespace Session

variable {σ : Type}

/-- The session after an event that changes no file. -/
def log (s : Session σ) (event : Event) : Session σ :=
  { s with events := s.events ++ [event] }

/-- The text on the standard output. -/
def stdout (s : Session σ) : String :=
  String.join (s.events.filterMap Event.printed?)

/-- The text on the standard error output. -/
def stderr (s : Session σ) : String :=
  String.join (s.events.filterMap Event.complained?)

/-- The path and the text of the last file that was written. -/
def written (s : Session σ) : Option (String × String) :=
  s.events.reverse.findSome? Event.written?

end Session

namespace Store

variable {σ : Type} [Sheet.Validator] (store : Store σ)

/-- The system that has the files of a store and notes what is done. -/
def system : System (StateM (Session σ)) where
  read path := modifyGet fun s =>
    (store.read s.files path, s.log (.read path))
  write path text := modifyGet fun s =>
    match store.write s.files path text with
    | (files, none) => (none, { s with files }.log (.write path text))
    | (files, some reason) => (some reason, { s with files })
  print text := modify fun s => s.log (.print text)
  complain text := modify fun s => s.log (.complain text)

/-- Runs the program: the exit code, and the session at the end. -/
def run (files : σ) (a : Arguments) : Nat × Session σ :=
  (store.system.run a).run ⟨files, []⟩

end Store

/-! ## Runs over plain files -/

/-- The files around the program. -/
structure Files where
  /-- What is found at a path. -/
  entry : String → Entry
  /-- Why no file can be written at a path, unless one can. -/
  refusal : String → Option String

namespace Files

/-- The files with a text at a path. -/
def put (files : Files) (path text : String) : Files :=
  { files with entry := fun p =>
      if p == path then .ofText text else files.entry p }

/-- Files as a store. -/
def store : Store Files where
  read files path := files.entry path
  write files path text :=
    match files.refusal path with
    | some reason => (files, some reason)
    | none => (files.put path text, none)

end Files

/-- What a run leaves behind. -/
structure Outcome where
  exit : Nat
  stdout : String
  stderr : String
  /-- The path and the text of the file that is written. -/
  written : Option (String × String)
  deriving DecidableEq, Repr, Inhabited

/-- Runs the program. -/
def run [Sheet.Validator] (files : Files) (a : Arguments) : Outcome :=
  let (exit, s) := Files.store.run files a
  ⟨exit, s.stdout, s.stderr, s.written⟩

end CssVendor.CommandLine
