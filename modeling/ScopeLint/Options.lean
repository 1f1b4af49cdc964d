import ScopeLint.Text.Digit

/-!
Command line options. Arguments are told apart first, each by itself; then they are taken from left
to right. Long options may be cut short where that leaves no doubt, a value may follow its option or
an equals sign, short options may be joined, and `--` ends the options.
-/
namespace ScopeLint

/-- The path that an option was given. Two dashes are never a value: behind an equals sign they are
taken away, and the option is left without a path. -/
inductive PathValue where
  | path (text : String)
  | withdrawn
deriving DecidableEq, Repr

def PathValue.ofText (text : String) : PathValue := if text = "--" then withdrawn else path text

def PathValue.path? : PathValue → Option String
  | path text => some text
  | withdrawn => none

structure Options where
  json : Bool := false
  builtinsFiles : List PathValue := []
  baselib : Option PathValue := none
  verbosity : Nat := 0
  files : List String := []
deriving DecidableEq, Repr

namespace Options

/-- Why the program stops before it starts. -/
inductive Stop where
  | help
  | misuse
deriving DecidableEq, Repr

def Stop.status : Stop → Nat
  | help => 0
  | misuse => 2

inductive Switch where
  | help
  | json
  | builtinsFile
  | baselib
  | verbose
deriving DecidableEq, Repr

def Switch.takesValue : Switch → Bool
  | builtinsFile | baselib => true
  | _ => false

def spellings : List (String × Switch) := [
  ("-h", .help), ("--help", .help), ("--json", .json), ("--builtins-file", .builtinsFile),
  ("--baselib", .baselib), ("-v", .verbose), ("--verbose", .verbose)]

/-- What is attached to a switch: a value behind the equals sign of a long form, or what follows a
short form, where an equals sign at once behind the first letter does not count. -/
inductive Attached where
  | nothing
  | value (text : List Char)
  | rest (text : List Char)
deriving DecidableEq, Repr

inductive Argument where
  | plain (text : String)
  | dashes
  | switch (s : Switch) (attached : Attached)
  | unknown
deriving DecidableEq, Repr

/-- Cuts a text at its first equals sign. -/
def cutAtEquals (text : List Char) : List Char × Option (List Char) :=
  match text.dropWhile (· ≠ '=') with
  | [] => (text, none)
  | _ :: value => (text.takeWhile (· ≠ '='), some value)

def attachedValue : Option (List Char) → Attached
  | none => .nothing
  | some value => .value value

def isLong (word : List Char) : Bool := ['-', '-'].isPrefixOf word

/-- Numbers below zero are plain arguments. A line end behind the number does not count. -/
def isNegativeNumber (text : List Char) : Bool :=
  match (if text.getLast? = some '\n' then text.dropLast else text) with
  | '-' :: number =>
    match number.dropWhile Text.isDecimalDigit with
    | [] => !number.isEmpty
    | '.' :: fraction => !fraction.isEmpty && fraction.all Text.isDecimalDigit
    | _ => false
  | _ => false

/-- What an argument that starts with a dash, and is no spelling of a switch, can be short for. -/
def abbreviated (text : List Char) : List Argument :=
  if isLong text then
    let (word, value) := cutAtEquals text
    (spellings.filter fun (spelling, _) => word.isPrefixOf spelling.toList).map
      fun (_, s) => .switch s (attachedValue value)
  else
    (spellings.filter fun (spelling, _) => spelling.toList = text.take 2).map
      fun (_, s) => .switch s (.rest (text.drop 2))

def spelled? (text : List Char) : Option Switch := spellings.lookup (String.ofList text)

def classify (argument : String) : Except Stop Argument :=
  let text := argument.toList
  match text with
  | '-' :: _ :: _ =>
    let (word, value) := cutAtEquals text
    match spelled? text, value, spelled? word with
    | some s, _, _ => .ok (.switch s .nothing)
    | none, some value, some s =>
      .ok (.switch s (if isLong word then .value value else .rest value))
    | none, _, _ => match abbreviated text with
      | [] =>
        if isNegativeNumber text || ' ' ∈ text then .ok (.plain argument) else .ok .unknown
      | [one] => .ok one
      | _ => .error .misuse
  | _ => .ok (.plain argument)

/-- All arguments behind two dashes are plain. -/
def classifyAll : List String → Except Stop (List Argument)
  | [] => .ok []
  | "--" :: rest => .ok (.dashes :: rest.map .plain)
  | argument :: rest => do
    let first ← classify argument
    let others ← classifyAll rest
    return first :: others

/-- The short switches that a text joins; all of its letters have to be one. -/
def joined : List Char → Except Stop (List Switch)
  | [] => .ok []
  | c :: rest => match spelled? ['-', c] with
    | none => .error .misuse
    | some s => do return s :: (← joined rest)

def apply (o : Options) : Switch → Except Stop Options
  | .help => .error .help
  | .json => .ok { o with json := true }
  | .verbose => .ok { o with verbosity := o.verbosity + 1 }
  | .builtinsFile | .baselib => .ok o

def applyValue (o : Options) (s : Switch) (value : String) : Except Stop Options :=
  match s with
  | .builtinsFile => .ok { o with builtinsFiles := o.builtinsFiles ++ [.ofText value] }
  | .baselib => .ok { o with baselib := some (.ofText value) }
  | other => o.apply other

def applyAll (o : Options) : List Switch → Except Stop Options
  | [] => .ok o
  | s :: rest => do (← o.apply s).applyAll rest

/-- How far the plain arguments have come: the files are one run, anything beyond it is too much. -/
inductive Files where
  | awaited
  | running
  | complete
deriving DecidableEq, Repr

/-- A switch ends the run of files. -/
def Files.afterSwitch : Files → Files
  | .awaited => .awaited
  | _ => .complete

/-- Takes the arguments one by one. `pending` is a switch that waits for its value, and `surplus`
tells whether any argument was too much. -/
def take (o : Options) (pending : Option Switch) (files : Files) (surplus : Bool) :
    List Argument → Except Stop Options
  | [] => if pending.isSome || surplus then .error .misuse else .ok o
  | argument :: rest => match pending, argument with
    | some s, .plain value => do
      let o ← o.applyValue s value
      o.take none files.afterSwitch surplus rest
    | some _, _ => .error .misuse
    | none, .plain text =>
      if files = .complete then o.take none files true rest
      else { o with files := o.files ++ [text] }.take none .running surplus rest
    | none, .dashes =>
      if files = .complete then o.take none files true rest
      else o.take none .running surplus rest
    | none, .unknown => o.take none files.afterSwitch true rest
    | none, .switch s attached =>
      if s.takesValue then
        match attached with
        | .nothing => o.take (some s) files surplus rest
        | .value text | .rest text => do
          let o ← o.applyValue s (String.ofList text)
          o.take none files.afterSwitch surplus rest
      else match attached with
        | .nothing => do
          let o ← o.apply s
          o.take none files.afterSwitch surplus rest
        | .value _ | .rest [] => .error .misuse
        | .rest text => do
          let switches ← joined text
          let o ← o.applyAll (s :: switches)
          o.take none files.afterSwitch surplus rest

def parse (arguments : List String) : Except Stop Options := do
  let classified ← classifyAll arguments
  ({} : Options).take none .awaited false classified

end Options
end ScopeLint
