/-!
Tables from names to values that remember the order in which names came in. A new value for a known
name keeps its place; a name that was taken out comes in again at the end.
-/
namespace ScopeLint

structure NameTable (α : Type) where
  entries : List (String × α)
deriving DecidableEq, Repr

namespace NameTable

variable {α : Type}

def empty : NameTable α := ⟨[]⟩

instance : Inhabited (NameTable α) := ⟨empty⟩

def names (t : NameTable α) : List String := t.entries.map Prod.fst

def size (t : NameTable α) : Nat := t.entries.length

def find? (t : NameTable α) (name : String) : Option α := t.entries.lookup name

def contains (t : NameTable α) (name : String) : Bool := (t.find? name).isSome

def putEntry (name : String) (value : α) : List (String × α) → List (String × α)
  | [] => [(name, value)]
  | (key, old) :: rest =>
    if key = name then (key, value) :: rest else (key, old) :: putEntry name value rest

def put (t : NameTable α) (name : String) (value : α) : NameTable α :=
  ⟨putEntry name value t.entries⟩

def erase (t : NameTable α) (name : String) : NameTable α :=
  ⟨t.entries.filter (·.1 ≠ name)⟩

end NameTable
end ScopeLint
