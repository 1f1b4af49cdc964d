import ScopeLint.Binding
import ScopeLint.IdSet
import ScopeLint.Node

/-!
The trace of a syntax tree: what a walk over it does to scopes, step by step. A node acts before its
children do, and a node that opens a scope closes it after them. Names that a node binds as targets
are claimed by it and are no uses when the walk comes to them.
-/
namespace ScopeLint

inductive Event where
  | enter (isToplevel : Bool)
  | leave
  /-- A branch begins. -/
  | branch
  /-- The innermost branch ends. -/
  | join
  /-- A name that is declared to be an outer one is bound as used. -/
  | bind (name : String) (span : Span) (traits : Traits) (isLoop declared : Bool)
  | use (name : String) (span : Span)
  /-- A function or a class is defined under a name. -/
  | define (name : String) (span : Span)
  /-- A semicolon with no statement before it. -/
  | semicolon (span : Span)
  /-- An import with neither another name nor a path. -/
  | emptyImport
deriving DecidableEq, Repr

namespace Form

/-- Definitions under these are not allowed by every target. -/
def isBranch : Form → Bool
  | ifBranch | tryBlock | handler => true
  | _ => false

/-- How a node of this form declares the names that it binds. -/
def traits : Form → Traits
  | importModule .. | importMembers .. | importedName .. => { isImport := true }
  | functionDef .. | lambda => { isFunction := true }
  | classDef .. => { isClass := true }
  | param .. => { isFuncArg := true }
  | _ => {}

def opensScope : Form → Bool
  | module | functionDef .. | lambda | classDef .. | comprehension => true
  | _ => false

/-- What a node of this form does after its children. -/
def after (form : Form) : List Event :=
  if form.opensScope then [.leave] else if form.isBranch then [.join] else []

end Form

namespace Node

def name? (n : Node) : Option String :=
  match n.form with
  | .name name => some name
  | _ => none

/-- The names that a target binds: its own, or those directly in a list. What else a list holds is
not bound. -/
def targetNames (target : Node) : List (String × Node) :=
  let named (n : Node) := n.name?.map (·, n)
  if target.form = .array then target.children.filterMap named else (named target).toList

/-- The target that a node binds, and whether as a loop variable. A name is a target of a plain
assignment only, a list of any. -/
def boundTarget (n : Node) : Option (Node × Bool) :=
  match n.form, n.parts with
  | .assign op, [target] :: _ =>
    if target.name?.isSome ∧ op ≠ "=" then none else some (target, false)
  | .forIn, [target] :: _ => some (target, true)
  | .comprehension, [target] :: _ => some (target, true)
  | _, _ => none

def boundNames (n : Node) : List (String × Node × Bool) :=
  match n.boundTarget with
  | none => []
  | some (target, isLoop) => target.targetNames.map fun (name, node) => (name, node, isLoop)

/-- The nodes that a node claims. -/
def claims (n : Node) : List Nat := n.boundNames.map (·.2.1.id)

def targetEvents (n : Node) : List Event :=
  n.boundNames.map fun (name, node, isLoop) => .bind name node.span {} isLoop false

/-- A word that may be missing or empty. -/
def word? (word : Option String) : Option String := word.filter (· ≠ "")

/-- What a node does before its children. -/
def events (n : Node) : List Event :=
  let plain (name : String) (span : Span) : Event := .bind name span n.form.traits false false
  let definition (name : String) (nameSpan : Span) : List Event :=
    [.define name n.span, plain name nameSpan, .enter false]
  match n.form with
  | .module => [.enter true]
  | .functionDef name nameSpan => definition name nameSpan
  | .classDef name nameSpan => definition name nameSpan
  | .lambda => [.enter false]
  | .param name _ => [plain name n.span]
  | .decorator name => [.use name n.span]
  | .importModule path asName asSpan =>
    match word? asName, path with
    | some asName, _ => [plain asName (asSpan.getD n.span)]
    | none, first :: _ => [plain first n.span]
    | none, [] => [.emptyImport]
  | .importedName name asName => [plain ((word? asName).getD name) n.span]
  | .assign _ => n.targetEvents
  | .varDef name nameSpan =>
    -- the name takes its traits from the value it is given
    let traits := (n.children.head?.map (·.form.traits)).getD {}
    [.bind name nameSpan traits false false]
  | .name name => [.use name n.span]
  | .comprehension => .enter false :: n.targetEvents
  | .forIn => n.targetEvents
  | .declaration _ names => names.map fun (name, span) => .bind name span {} false true
  | .empty marker => if marker = ";" then [.semicolon n.span] else []
  | .ifBranch | .tryBlock | .handler => [.branch]
  | _ => []

mutual

/-- The trace of a node after the nodes `seen` were visited or claimed; and which nodes are seen
after it. -/
def trace : Node → (seen : IdSet) → List Event × IdSet
  | mk id span form parts, seen =>
    if seen.contains id then ([], seen) else
    let n := mk id span form parts
    let (inner, seen) := traceParts parts ((seen.insert id).insertAll n.claims)
    (n.events ++ inner ++ form.after, seen)

def traceParts : List (List Node) → (seen : IdSet) → List Event × IdSet
  | [], seen => ([], seen)
  | part :: parts, seen =>
    let (events, seen) := tracePart part seen
    let (more, seen) := traceParts parts seen
    (events ++ more, seen)

def tracePart : List Node → (seen : IdSet) → List Event × IdSet
  | [], seen => ([], seen)
  | n :: rest, seen =>
    let (events, seen) := trace n seen
    let (more, seen) := tracePart rest seen
    (events ++ more, seen)

end

end Node
end ScopeLint
