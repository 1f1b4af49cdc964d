import ScopeLint.Builtins
import ScopeLint.Resolve

/-!
Linting one file. A source that does not parse gives one diagnostic that says so, and no other.
-/
namespace ScopeLint

/-- What linting a file comes to. -/
structure Report where
  diagnostics : List Diagnostic
  notes : List Note := []
deriving DecidableEq, Repr

def syntaxDiagnostic (e : SyntaxError) (filename : String) : Diagnostic :=
  { filename
    ident := Check.syntaxError.ident
    message := if e.message = "" then Check.syntaxError.render "" none else e.message
    startLine := e.place.map Position.line
    startCol := e.place.map Position.col }

/-- Lints a tree; `code` is its text, for the line scan. -/
def lintTree (root : Node) (code filename : String) (builtins : List String) :
    Except WalkError Report := do
  let w ← walk root filename
  let kept := Resolve.resolve w code builtins
  let found := (Resolve.candidates w code).length
  return ⟨kept, w.notes ++ [.resolved filename found kept.length]⟩

def lint (code filename : String) (builtins : List String) : Except WalkError Report :=
  match parse code with
  | .error e => .ok ⟨[syntaxDiagnostic e filename], [.parseFailed filename e.message]⟩
  | .ok root => lintTree root code filename builtins

end ScopeLint
