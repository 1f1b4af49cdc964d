import ScopeLint.Binding
import ScopeLint.Diagnostic
import ScopeLint.NameTable

/-!
Scopes. A scope keeps every binding made in it; a binding is known by its place among them, so what
is found out about it later shows everywhere it is mentioned. A use of a name that is not bound yet
is parked until the scopes around have closed.
-/
namespace ScopeLint

/-- A binding that took the place of an earlier one in the same scope. -/
structure Shadowing where
  name : String
  previous : Nat
  current : Nat
deriving DecidableEq, Repr

structure Scope where
  index : Nat
  isToplevel : Bool
  parent : Option Int
  children : List Nat := []
  /-- All bindings made here, oldest first. -/
  history : List Binding := []
  /-- For each name its last binding, by place in the history. -/
  bindings : NameTable Nat := .empty
  shadowed : List Shadowing := []
  undefined : NameTable Span := .empty
  unused : NameTable Nat := .empty
deriving DecidableEq, Repr, Inhabited

namespace Scope

def find? (s : Scope) (name : String) : Option Binding :=
  (s.bindings.find? name).bind (s.history[·]?)

/-- Binds a name. A binding that replaces a used one counts as used. -/
def bind (s : Scope) (name : String) (span : Span) (traits : Traits) : Scope :=
  let fresh := Binding.declare name span traits
  let place := s.history.length
  match s.bindings.find? name with
  | none => { s with
      history := s.history ++ [fresh]
      bindings := s.bindings.put name place }
  | some previous =>
    let used := (s.history[previous]?).any Binding.used
    { s with
      history := s.history ++ [{ fresh with used }]
      bindings := s.bindings.put name place
      shadowed := s.shadowed ++ [⟨name, previous, place⟩] }

/-- Changes what is known about the last binding of a name, if there is one. -/
def mark (s : Scope) (name : String) (f : Binding → Binding) : Scope :=
  match s.bindings.find? name with
  | none => s
  | some place => { s with history := s.history.modify place f }

def markLoop (s : Scope) (name : String) (value : Bool) : Scope :=
  s.mark name fun b => { b with isLoop := value }

def markUsed (s : Scope) (name : String) (value : Bool) : Scope :=
  s.mark name fun b => { b with used := value }

/-- Registers a use: of the binding made here, or else parked at the first place of use. -/
def use (s : Scope) (name : String) (span : Span) : Scope :=
  if s.bindings.contains name then s.markUsed name true
  else if s.undefined.contains name then s
  else { s with undefined := s.undefined.put name span }

/-- The current bindings, in the order in which their names were first bound. -/
def currentBindings (s : Scope) : List (String × Binding) :=
  s.bindings.entries.filterMap fun (name, place) => (s.history[place]?).map (name, ·)

def unusedBindings (s : Scope) : List (String × Binding) :=
  s.unused.entries.filterMap fun (name, place) => (s.history[place]?).map (name, ·)

/-- The shadowings with the bindings themselves: the name, the earlier and the later one. -/
def shadowings (s : Scope) : List (String × Binding × Binding) :=
  s.shadowed.filterMap fun r => do
    return (r.name, ← s.history[r.previous]?, ← s.history[r.current]?)

def undefinedMessages (s : Scope) (filename : String) : List Diagnostic :=
  s.undefined.entries.map fun (name, span) =>
    Diagnostic.make filename .undefinedName name span .error none

/-- What a binding that nobody uses comes to. Only an import is reported at the top level, and a
parameter nowhere. -/
def unusedReport (filename name : String) (b : Binding) : Option Diagnostic :=
  if b.traits.isImport then some (Diagnostic.make filename .unusedImport name b.span .error none)
  else if !b.traits.isToplevel && !b.traits.isFuncArg then
    some (Diagnostic.make filename .unusedLocal name b.span .error none)
  else none

def unusedMessages (s : Scope) (filename : String) : List Diagnostic :=
  s.unusedBindings.filterMap fun (name, b) => unusedReport filename name b

def shadowedMessages (s : Scope) (filename : String) : List Diagnostic :=
  s.shadowings.filterMap fun (name, previous, current) =>
    if current.isLoop && !previous.isLoop then
      some (Diagnostic.make filename .loopShadowed name current.span .error previous.span.line)
    else none

/-- What a scope reports once every scope has closed: names nobody defines, bindings nobody uses,
and loop variables that take over a name bound otherwise. -/
def messages (s : Scope) (filename : String) : List Diagnostic :=
  s.undefinedMessages filename ++ s.unusedMessages filename ++ s.shadowedMessages filename

end Scope
end ScopeLint
