import ScopeLint.Scope

/-!
The arena owns the scopes of one file. Scopes refer to each other by index, in the order in which
they were opened.

Resolution is deferred: when a scope closes, it clears the parked uses of its names in all scopes
inside it. What is still parked after the outermost scope has closed is undefined.
-/
namespace ScopeLint

structure Arena where
  scopes : List Scope := []
deriving DecidableEq, Repr, Inhabited

/-- What closing a scope came to. -/
structure Closing where
  scope : Nat
  bindings : Nat
  resolved : Nat
  unused : Nat
deriving DecidableEq, Repr

namespace Arena

def size (a : Arena) : Nat := a.scopes.length

/-- The scope that an index stands for. A negative index counts from the end. -/
def place? (a : Arena) (index : Int) : Option Nat :=
  if 0 ≤ index then
    if index.toNat < a.size then some index.toNat else none
  else if 0 ≤ index + a.size then some (index + a.size).toNat else none

def modify (a : Arena) (place : Nat) (f : Scope → Scope) : Arena :=
  ⟨a.scopes.modify place f⟩

/-- Adds a scope and enters it among its parent's children. The scope stays even if there is no
such parent, and the answer tells. -/
def add (a : Arena) (parent : Option Int) (isToplevel : Bool) : Arena × Bool :=
  let index := a.size
  let added : Arena := ⟨a.scopes ++ [{ index, isToplevel, parent }]⟩
  match parent with
  | none => (added, true)
  | some parent => match added.place? parent with
    | none => (added, false)
    | some place =>
      (added.modify place fun s => { s with children := s.children ++ [index] }, true)

/-- Works off a stack of scopes, each before the scopes inside it. -/
def descend (a : Arena) : (fuel : Nat) → List Nat → List Nat
  | 0, _ => []
  | _, [] => []
  | fuel + 1, place :: stack =>
    match a.scopes[place]? with
    | none => descend a fuel stack
    | some s => place :: descend a fuel (s.children ++ stack)

/-- The scopes strictly inside a scope, outer before inner and earlier before later. -/
def descendants (a : Arena) (place : Nat) : List Nat :=
  match a.scopes[place]? with
  | none => []
  | some s => a.descend a.size s.children

/-- Whether the use of a name is parked in a scope. -/
def parks (a : Arena) (name : String) (place : Nat) : Bool :=
  (a.scopes[place]?).any (·.undefined.contains name)

/-- Clears a parked name in each of the given scopes. -/
def clear (a : Arena) (name : String) (places : List Nat) : Arena :=
  places.foldl
    (fun a place => a.modify place fun s => { s with undefined := s.undefined.erase name }) a

/-- Resolves one binding of the scope at `place`, and counts the scopes whose parked use it meets.
A binding that meets none and was never used in its own scope goes on the unused list. -/
def resolve (place : Nat) (state : Arena × Nat) (entry : String × Nat) : Arena × Nat :=
  let (a, resolved) := state
  let (name, binding) := entry
  let parked := (a.descendants place).filter (a.parks name)
  let used := ((a.scopes[place]?).bind (·.history[binding]?)).any Binding.used
  let cleared := a.clear name parked
  let listed :=
    if parked.isEmpty && !used then
      cleared.modify place fun s => { s with unused := s.unused.put name binding }
    else cleared
  (listed, resolved + parked.length)

/-- Closes the scope at `place`. All scopes inside it have to be closed by then. A use that is
resolved from inside does not mark the binding as used. -/
def close (a : Arena) (place : Nat) : Arena × Closing :=
  let entries := ((a.scopes[place]?).map (·.bindings.entries)).getD []
  let (closed, resolved) := entries.foldl (resolve place) (a, 0)
  let unused := ((closed.scopes[place]?).map (·.unused.size)).getD 0
  (closed, ⟨place, entries.length, resolved, unused⟩)

end Arena
end ScopeLint
