import ScopeLint.Text.Quoted
import ScopeLint.Token.Stream

/-!
Why a source cannot be parsed, where that shows, and in which words it is reported.
-/
namespace ScopeLint

inductive SyntaxError where
  /-- The text breaks off before the grammar finds fault with it. -/
  | fault (f : Fault)
  | unexpectedToken (t : Token)
  /-- The tokens end too early; the place is that of the last one. -/
  | unexpectedEnd (place : Position)
  /-- A keyword argument is named by something that is no identifier. -/
  | keywordName (span : Span)
deriving DecidableEq, Repr

def Fault.message : Fault → String
  | .badCharacter c _ => "Unexpected character " ++ Text.quoted (String.singleton c)
  | .badDedent found expected =>
    "Unexpected dedent to column " ++ toString found ++ ". Expected dedent to " ++
      toString expected
  | .unmatchedCloser => ""

def Fault.place : Fault → Option Position
  | .badCharacter _ place => some place
  | .badDedent _ _ => none
  | .unmatchedCloser => none

namespace SyntaxError

def message : SyntaxError → String
  | fault f => f.message
  | unexpectedToken t =>
    match t.kind with
    | .newline => "Unexpected end of line"
    | .indent => "Unexpected indentation"
    | .dedent => "Unexpected indentation"
    | _ => "Unexpected token " ++ Text.quoted t.text
  | unexpectedEnd _ => "Unexpected end of line"
  | keywordName _ => "Keyword argument name must be an identifier"

def place : SyntaxError → Option Position
  | fault f => f.place
  | unexpectedToken t => some t.start
  | unexpectedEnd place => some place
  | keywordName span => span.start

end SyntaxError
end ScopeLint
