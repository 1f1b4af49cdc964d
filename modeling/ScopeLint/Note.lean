import ScopeLint.Walk

/-!
Notes: what the program says about its own work when asked to be verbose.
-/
namespace ScopeLint

inductive Note where
  | linting (filename : String)
  | readFailed (name reason : String)
  | parseFailed (filename message : String)
  | closed (closing : Closing)
  | walked (filename : String) (scopes messages : Nat)
  | resolved (filename : String) (candidates kept : Nat)
  | baselib (names : Nat)
deriving DecidableEq, Repr

namespace Note

inductive Level where
  | info
  | debug
deriving DecidableEq, Repr

def level : Note → Level
  | linting _ | readFailed _ _ => .info
  | _ => .debug

/-- Which part of the program speaks. -/
def source : Note → String
  | linting _ | readFailed _ _ => "pyjlint.cli"
  | parseFailed _ _ => "pyjlint.linter"
  | closed _ => "pyjlint.analysis.scope"
  | walked _ _ _ => "pyjlint.analysis.walker"
  | resolved _ _ _ => "pyjlint.analysis.resolver"
  | baselib _ => "pyjlint.analysis.builtins"

def text : Note → String
  | linting filename => "linting " ++ filename
  | readFailed name reason => "read failed for " ++ name ++ ": " ++ reason
  | parseFailed filename message => filename ++ ": parse failed: " ++ message
  | closed c =>
    "finalized scope " ++ toString c.scope ++ ": " ++ toString c.bindings ++ " bindings, " ++
      toString c.resolved ++ " resolved references, " ++ toString c.unused ++ " unused"
  | walked filename scopes messages =>
    filename ++ ": walked " ++ toString scopes ++ " scopes, " ++ toString messages ++
      " direct diagnostics"
  | resolved filename candidates kept =>
    filename ++ ": " ++ toString candidates ++ " diagnostics, " ++ toString kept ++
      " after filtering"
  | baselib names => "base library provides " ++ toString names ++ " names"

/-- The line of the log, with the level in a column of five. -/
def line (n : Note) : String :=
  let label := match n.level with
    | .info => "INFO "
    | .debug => "DEBUG"
  "[" ++ label ++ "] " ++ n.source ++ ": " ++ n.text

/-- What shows at a verbosity: nothing, then information, then everything. -/
def shows (verbosity : Nat) (n : Note) : Bool :=
  match n.level with
  | .info => 1 ≤ verbosity
  | .debug => 2 ≤ verbosity

end Note

/-- What a finished walk says. -/
def Walk.notes (w : Walk) : List Note :=
  w.closings.map .closed ++ [.walked w.filename w.walked.length w.messages.length]

end ScopeLint
