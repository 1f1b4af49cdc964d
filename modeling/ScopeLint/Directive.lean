import ScopeLint.Check
import ScopeLint.Text.Blank
import ScopeLint.Text.Lines

/-!
Directives: a last word `no-lint` on a line drops what is reported there, all of it or what the
directive lists.
-/
namespace ScopeLint.Directive

def marker : List Char := "no-lint".toList

/-- The identifiers that a word suppresses, if it is a directive. Anything may follow the marker;
only what stands behind the first colon counts. The marker may be in capitals; ASCII ones suffice,
since no other character has a letter of it as its whole lower case form. -/
def parse (word : List Char) : Option (List String) :=
  let word := match word with
    | '#' :: rest => rest
    | _ => word
  if (word.take marker.length).map Char.toLower ≠ marker then none
  else match word.dropWhile (· ≠ ':') with
    | [] => some Check.idents
    | _ :: listed => some ((Text.splitAt ',' listed).map fun part => String.ofList (Text.trim part))

/-- Whether a directive leaves nothing of the catalog on its line. -/
def suppressesAll (idents : List String) : Bool :=
  idents.all (· ∈ Check.idents) && Check.idents.all (· ∈ idents)

end ScopeLint.Directive
