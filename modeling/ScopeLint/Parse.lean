import ScopeLint.Grammar.Meaning
import ScopeLint.SyntaxError
import ScopeLint.Token.Layout
import ScopeLint.Token.Lexer
import ScopeLint.Token.Separator

/-!
From source text to a syntax tree. Tokens are judged in order, so a token that the grammar rejects
is reported rather than a fault in the text behind it.
-/
namespace ScopeLint

/-- The tokens of a text, laid out and with its semicolons told apart. -/
def tokenize (text : List Char) : Stream := Separator.fold (Layout.layout (Lexer.lex text))

/-- The text with its last line ended. -/
def endLine (text : List Char) : List Char :=
  if text.getLast? = some '\n' then text else text ++ ['\n']

/-- Where the end of the tokens shows: at the last one, or where the text starts. -/
def endPlace (tokens : List Token) : Position := (tokens.getLast?.map Token.start).getD ⟨1, 0⟩

def parse (source : String) : Except SyntaxError Node :=
  let stream := tokenize (endLine source.toList)
  match Grammar.read stream.tokens, stream.fault with
  | .error (some t), _ => .error (.unexpectedToken t)
  | _, some f => .error (.fault f)
  | .error none, none => .error (.unexpectedEnd (endPlace stream.tokens))
  | .ok tree, none =>
    match (tree.meaning.value : Grammar.Build Node) with
    | .error span => .error (.keywordName span)
    | .ok node => .ok node.number

end ScopeLint
