import ScopeLint.Token.Lexeme
import ScopeLint.Token.Stream

/-!
The lexer: lexemes one after the other, from the first character to the last or to a fault.
-/
namespace ScopeLint.Lexer

/-- Scans on from `here`; the counter is how many characters belong to the lexeme before. -/
def scan (here : Position) : Nat → List Char → Stream
  | _, [] => .done
  | skip + 1, c :: rest => scan (here.advance c) skip rest
  | 0, c :: rest =>
    match Lexeme.lexeme (c :: rest) with
    | none => .failed (.badCharacter c here)
    | some (.skipped, n) => scan (here.advance c) (n - 1) rest
    | some (.token kind, n) =>
      let text := (c :: rest).take n
      .cons ⟨kind, String.ofList text, here, here.after text⟩ (scan (here.advance c) (n - 1) rest)

def lex (source : List Char) : Stream := scan ⟨1, 0⟩ 0 source

end ScopeLint.Lexer
