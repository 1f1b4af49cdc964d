import ScopeLint.Arena
import ScopeLint.Trace

/-!
Walks: a trace replayed on an arena. Bindings and uses go to the innermost open scope, and a scope
is resolved as it closes, so scopes complete from the inside out. Whether a node opens a scope is
told by its form, so that it opens one at most needs no check.
-/
namespace ScopeLint

/-- Why a tree cannot be walked. -/
inductive WalkError where
  | bindingOutsideScope
  | useOutsideScope
  | emptyImport
  /-- A scope is left that was never entered, or never left. -/
  | unbalanced
  /-- More branches begin than end, or fewer. -/
  | unevenBranches
deriving DecidableEq, Repr

def WalkError.message : WalkError → String
  | .bindingOutsideScope => "binding outside of any scope"
  | .useOutsideScope => "reference outside of any scope"
  | .emptyImport => "list index out of range"
  | .unbalanced => "scope stack not empty after walk"
  | .unevenBranches => "branch depth not balanced after walk"

structure Walk where
  filename : String
  arena : Arena := {}
  /-- The open scopes, innermost first. -/
  opened : List Nat := []
  /-- The closed scopes, in the order of closing. -/
  walked : List Nat := []
  /-- How many branches have begun and not ended. -/
  branches : Int := 0
  messages : List Diagnostic := []
  closings : List Closing := []
deriving DecidableEq, Repr

namespace Walk

def severityOf : Check → Severity
  | .extraSemicolon => .warning
  | _ => .error

def report (w : Walk) (check : Check) (name : String) (span : Span) : Walk :=
  { w with messages := w.messages ++
      [Diagnostic.make w.filename check name span (severityOf check) none] }

def step (w : Walk) : Event → Except WalkError Walk
  | .enter isToplevel =>
    let index := w.arena.size
    let (arena, _) := w.arena.add (w.opened.head?.map Int.ofNat) isToplevel
    .ok { w with arena, opened := index :: w.opened }
  | .leave => match w.opened with
    | [] => .error .unbalanced
    | place :: opened =>
      let (arena, closing) := w.arena.close place
      .ok { w with
        arena, opened
        walked := w.walked ++ [place]
        closings := w.closings ++ [closing] }
  | .branch => .ok { w with branches := w.branches + 1 }
  | .join => .ok { w with branches := w.branches - 1 }
  | .bind name span traits isLoop declared => match w.opened with
    | [] => .error .bindingOutsideScope
    | place :: _ => .ok { w with
        arena := w.arena.modify place fun s =>
          let bound := s.bind name span { traits with isToplevel := s.isToplevel }
          let looped := if isLoop then bound.markLoop name true else bound
          if declared then looped.markUsed name true else looped }
  | .use name span => match w.opened with
    | [] => .error .useOutsideScope
    | place :: _ => .ok { w with arena := w.arena.modify place (·.use name span) }
  | .define name span =>
    .ok (if w.branches = 0 then w else w.report .functionInBranch name span)
  | .semicolon span => .ok (w.report .extraSemicolon ";" span)
  | .emptyImport => .error .emptyImport

def replay (w : Walk) : List Event → Except WalkError Walk
  | [] => .ok w
  | e :: events => do (← w.step e).replay events

end Walk

/-- Walks a whole tree. What it opens on the way has to be closed in the end. -/
def walk (root : Node) (filename : String) : Except WalkError Walk := do
  let w ← Walk.replay { filename } (root.trace .empty).1
  if w.opened ≠ [] then .error .unbalanced
  else if w.branches ≠ 0 then .error .unevenBranches
  else return w

end ScopeLint
