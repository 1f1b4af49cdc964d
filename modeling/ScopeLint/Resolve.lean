import ScopeLint.LineScan
import ScopeLint.Walk

/-!
The final list of diagnostics of a walked file: all candidates, less what directives and built-in
names excuse, in the order of their places.
-/
namespace ScopeLint.Resolve

/-- Where a diagnostic sorts; what is unknown counts as zero. -/
def key (d : Diagnostic) : Int × Int := (d.startLine.getD 0, d.startCol.getD 0)

def precedes (a b : Diagnostic) : Bool :=
  (key a).1 < (key b).1 || ((key a).1 == (key b).1 && (key a).2 ≤ (key b).2)

def insert (d : Diagnostic) : List Diagnostic → List Diagnostic
  | [] => [d]
  | e :: rest => if precedes d e then d :: e :: rest else e :: insert d rest

/-- Sorts by place; diagnostics of one place stay in order. -/
def sort : List Diagnostic → List Diagnostic
  | [] => []
  | d :: rest => insert d (sort rest)

def isSuppressed (filters : LineScan.Filters) (d : Diagnostic) : Bool :=
  match d.startLine with
  | none => false
  | some line => (filters.lookup line).any (d.ident ∈ ·)

def isBuiltin (builtins : List String) (d : Diagnostic) : Bool :=
  d.ident == Check.undefinedName.ident && d.name ∈ builtins

def scopeMessages (w : Walk) : List Diagnostic :=
  w.walked.flatMap fun place =>
    ((w.arena.scopes[place]?).map (·.messages w.filename)).getD []

/-- Everything there is to report: what the walk found, the line scan, then each scope. -/
def candidates (w : Walk) (code : String) : List Diagnostic :=
  w.messages ++ (LineScan.scan code w.filename).messages ++ scopeMessages w

def resolve (w : Walk) (code : String) (builtins : List String) : List Diagnostic :=
  let filters := (LineScan.scan code w.filename).filters
  sort ((candidates w code).filter fun d => !isSuppressed filters d && !isBuiltin builtins d)

end ScopeLint.Resolve
