import ScopeLint.Note
import ScopeLint.Parse

/-!
Built-in names, which are never undefined: those of the language and of the running environment,
those of a base library, and any others that are given.
-/
namespace ScopeLint.Builtins

def environmentNames : List String := [
  "this", "undefined", "alert", "arguments", "window", "document", "console", "JSON", "parseInt",
  "parseFloat", "Math", "isNaN", "isFinite", "eval", "require"]

def typeNames : List String := ["bool", "int", "float"]

def classNames : List String := [
  "Array", "Boolean", "Date", "Error", "EvalError", "Function", "Map", "Number", "Object",
  "Promise", "RangeError", "ReferenceError", "RegExp", "Set", "String", "Symbol", "SyntaxError",
  "TypeError", "URIError", "WeakMap"]

def libraryNames : List String := [
  "abs", "all", "any", "bind", "chr", "cmp", "dict", "dir", "enumerate", "filter", "getattr",
  "hasattr", "isinstance", "iter", "len", "list", "map", "max", "min", "ord", "print", "range",
  "reduce", "reversed", "setattr", "sorted", "str", "sum", "type", "zip", "Exception",
  "AttributeError", "IndexError", "KeyError", "ValueError"]

def defaults : List String := environmentNames ++ typeNames ++ classNames ++ libraryNames

/-- Adds the names that are not there yet. -/
def union (known : List String) : List String → List String
  | [] => known
  | name :: names => union (if name ∈ known then known else known ++ [name]) names

/-- Why a base library gives no names. -/
inductive LoadError where
  | parse (e : SyntaxError)
  | walk (e : WalkError)
deriving DecidableEq, Repr

structure Loaded where
  names : List String
  notes : List Note := []

/-- The names that a source binds at module level. -/
def moduleNames (source : String) : Except LoadError Loaded :=
  match parse source with
  | .error e => .error (.parse e)
  | .ok root => match walk root "<baselib>" with
    | .error e => .error (.walk e)
    | .ok w =>
      .ok ⟨((w.arena.scopes[0]?).map (·.bindings.names)).getD [], w.notes⟩

/-- The default names with the extra ones and those of a base library. -/
def load (library : Option String) (extra : List String) : Except LoadError Loaded :=
  let known := union defaults extra
  match library with
  | none => .ok { names := known }
  | some source => do
    let found ← moduleNames source
    return ⟨union known found.names, found.notes ++ [.baselib found.names.length]⟩

end ScopeLint.Builtins
