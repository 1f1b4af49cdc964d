import ScopeLint.Token.Stream

/-!
Semicolons. One directly after a statement separates it from the next and is dropped at the end of
a line; one with no statement before it on its line stands for an empty statement.
-/
namespace ScopeLint.Separator

def emptyStatement (t : Token) : Token := { t with kind := .emptyStatement }

/-- `pending` is a semicolon not yet known to separate, `inStatement` whether a statement stands
directly before. -/
def foldFrom (pending : Option Token) (inStatement : Bool) : List Token → List Token
  | [] => []
  | t :: rest =>
    if t.kind = .separator then
      if inStatement then foldFrom (some t) false rest
      else pending.toList ++ emptyStatement t :: foldFrom (some t) false rest
    else if t.kind.isStructural then t :: foldFrom none false rest
    else pending.toList ++ t :: foldFrom none true rest

def fold (s : Stream) : Stream := { s with tokens := foldFrom none false s.tokens }

end ScopeLint.Separator
