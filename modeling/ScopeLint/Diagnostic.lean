import ScopeLint.Check
import ScopeLint.Span

/-!
Diagnostics: one finding each, with the file, the place and the rendered message.
-/
namespace ScopeLint

inductive Severity where
  | warning
  | error
deriving DecidableEq, Repr

def Severity.label : Severity → String
  | .warning => "WARN"
  | .error => "ERR"

structure Diagnostic where
  filename : String
  ident : String
  message : String
  severity : Severity := .error
  startLine : Option Int := none
  startCol : Option Int := none
  endLine : Option Int := none
  endCol : Option Int := none
  name : String := ""
  otherLine : Option Int := none
deriving DecidableEq, Repr

namespace Diagnostic

/-- A finding about `name` at `span`; `line` is the other line that the message refers to. -/
def make (filename : String) (check : Check) (name : String) (span : Span)
    (severity : Severity) (line : Option Int) : Diagnostic :=
  { filename, name, severity
    ident := check.ident
    message := check.render name line
    startLine := span.start.map Position.line
    startCol := span.start.map Position.col
    endLine := span.stop.map Position.line
    endCol := span.stop.map Position.col
    otherLine := line }

/-- The line printed for a diagnostic; an unknown number leaves its field empty. -/
def line (d : Diagnostic) : String :=
  let number (n : Option Int) := (n.map toString).getD ""
  String.intercalate ":"
    [d.filename, d.severity.label, d.ident, number d.startLine, number d.startCol] ++
    ": " ++ d.message

end Diagnostic
end ScopeLint
