import ScopeLint.Diagnostic.Json
import ScopeLint.Files
import ScopeLint.Lint
import ScopeLint.Options

/-!
The command line: which inputs are read, what is printed about each of them and on which channel,
and the exit status. Inputs are linted in the order given; one that cannot be read ends the run.
-/
namespace ScopeLint.CommandLine

def standardInput : String := "-"

/-- Standard input was asked for more than once. -/
structure Misuse where
deriving DecidableEq, Repr

def Misuse.message (_ : Misuse) : String :=
  "Can read a single file from STDIN (two or more dashes specified)"

/-- The inputs to lint; without any it is standard input. -/
def inputs (files : List String) : Except Misuse (List String) :=
  if files.isEmpty then .ok [standardInput]
  else if 1 < files.count standardInput then .error {}
  else .ok files

/-- Why built-in names cannot be had. -/
inductive BuiltinsError where
  | names (path : String) (fault : ReadFault)
  | library (path : String) (fault : ReadFault)
  | badPath (p : BadPath)
  | undecodable (e : Text.Utf8.DecodeError)
  | load (e : Builtins.LoadError)
deriving DecidableEq, Repr

/-- The names of a word list; `shown` is how messages call the file. -/
def readNames (fs : FileSystem) (path shown : String) : Except BuiltinsError (List String) :=
  match fs.readText path with
  | .ok text => .ok (listedNames text)
  | .error (.unreadable _ fault) => .error (.names shown fault)
  | .error (.badPath p) => .error (.badPath p)
  | .error (.undecodable e) => .error (.undecodable e)

def readLibrary (fs : FileSystem) (path : String) : Except BuiltinsError String :=
  match fs.readSource path with
  | .ok text => .ok text
  | .error (.unreadable shown fault) => .error (.library shown fault)
  | .error (.badPath p) => .error (.badPath p)
  | .error (.undecodable e) => .error (.undecodable e)

def givenPath : PathValue → Except BuiltinsError String
  | .path text => .ok text
  | .withdrawn => .error (.badPath .withdrawn)

def readAllNames (fs : FileSystem) : List PathValue → Except BuiltinsError (List String)
  | [] => .ok []
  | value :: paths => do
    let path ← givenPath value
    let names ← readNames fs path (Path.normalize path)
    let more ← readAllNames fs paths
    return names ++ more

def loadBuiltins (fs : FileSystem) (o : Options) : Except BuiltinsError Builtins.Loaded := do
  let extra ← readAllNames fs o.builtinsFiles
  let library ← match o.baselib with
    | none => pure none
    | some value => do pure (some (← readLibrary fs (← givenPath value)))
  match Builtins.load library extra with
  | .ok loaded => return loaded
  | .error e => .error (.load e)

/-- Failures that no part of the program answers for. -/
inductive Crash where
  | badPath (p : BadPath)
  | undecodable (e : Text.Utf8.DecodeError)
  | walk (e : WalkError)
deriving DecidableEq, Repr

/-- Bytes that are no text and paths that are none end the program; all else is reported. -/
def BuiltinsError.report : BuiltinsError → Except Crash String
  | names path fault => .ok ("builtins file unavailable: " ++ path ++ ": " ++ fault.reason)
  | library path fault =>
    .ok ("base library source unavailable: " ++ path ++ ": " ++ fault.reason)
  | load (.parse e) => .ok e.message
  | badPath p => .error (.badPath p)
  | undecodable e => .error (.undecodable e)
  | load (.walk e) => .error (.walk e)

/-- How a run ended, with the lines it printed. -/
structure Outcome where
  status : Nat
  output : List String := []
  errors : List String := []
deriving DecidableEq, Repr

structure Env where
  fs : FileSystem
  stdin : Bytes

def Env.readInput (env : Env) (name : String) : Except TextFault String :=
  if name = standardInput then textOf env.stdin else env.fs.readSource name

def shownName (name : String) : String := if name = standardInput then "<stdin>" else name

def printed (o : Options) (d : Diagnostic) : String := if o.json then d.json else d.line

def logLines (o : Options) (notes : List Note) : List String :=
  (notes.filter (·.shows o.verbosity)).map Note.line

/-- The run so far, with what linting one more input came to. -/
def Outcome.add (o : Options) (done : Outcome) (name : String) (report : Report) : Outcome where
  status := if report.diagnostics.isEmpty then done.status else 1
  output := done.output ++ report.diagnostics.map (printed o)
  errors := done.errors ++ logLines o (.linting (shownName name) :: report.notes)

/-- How a run ends at an input that cannot be read. -/
def Outcome.stop (o : Options) (done : Outcome) (name : String) : TextFault → Except Crash Outcome
  | .badPath p => .error (.badPath p)
  | fault =>
    .ok { done with
      status := 1
      errors := done.errors ++ ["ERROR: can't read file: " ++ name] ++
        logLines o [.readFailed name fault.message] }

/-- Lints the inputs; the run so far is `done`. -/
def lintInputs (env : Env) (o : Options) (builtins : List String) (done : Outcome) :
    List String → Except Crash Outcome
  | [] => .ok done
  | name :: names => match env.readInput name with
    | .error fault => done.stop o name fault
    | .ok code => match lint code (shownName name) builtins with
      | .error e => .error (.walk e)
      | .ok report => lintInputs env o builtins (done.add o name report) names

def failed (message : String) : Outcome := { status := 1, errors := ["ERROR: " ++ message] }

def run (env : Env) (o : Options) : Except Crash Outcome :=
  match inputs o.files with
  | .error e => .ok (failed e.message)
  | .ok names => match loadBuiltins env.fs o with
    | .error e => do return failed (← e.report)
    | .ok loaded =>
      lintInputs env o loaded.names { status := 0, errors := logLines o loaded.notes } names

end ScopeLint.CommandLine
