import ScopeLint.Span

/-!
Bindings: names that a scope declares. How a name was declared is fixed when it is bound; whether it
is a loop variable and whether it was used is found out later.
-/
namespace ScopeLint

structure Traits where
  isImport : Bool := false
  isToplevel : Bool := false
  isClass : Bool := false
  isFunction : Bool := false
  isFuncArg : Bool := false
deriving DecidableEq, Repr, Inhabited

structure Binding where
  name : String
  span : Span
  traits : Traits
  isLoop : Bool := false
  used : Bool := false
deriving DecidableEq, Repr, Inhabited

/-- A fresh binding. A class is never also a function. -/
def Binding.declare (name : String) (span : Span) (traits : Traits) : Binding :=
  { name, span
    traits := { traits with isFunction := traits.isFunction && !traits.isClass } }

end ScopeLint
