import ScopeLint.Text.Lines
import ScopeLint.Token.Stream

/-!
Layout: indentation becomes `indent` and `dedent` tokens, and line ends inside brackets vanish.
Brackets are counted, not matched; the grammar matches them.
-/
namespace ScopeLint.Layout

/-- The indentation that a line end leaves behind. -/
def indentation (t : Token) : List Char := Text.lastPiece '\n' t.text.toList

/-- A tab is eight columns wide wherever it stands. -/
def width (blanks : List Char) : Nat := blanks.count ' ' + 8 * blanks.count '\t'

/-- A token of layout stands where the line end does. -/
def marker (kind : Kind) (text : List Char) (t : Token) : Token :=
  { t with kind, text := String.ofList text }

/-- Blocks still open at the end are closed at the last token read, also if it was dropped. -/
def closing (levels : List Nat) (last : Option Token) : List Token :=
  match last with
  | some t => levels.map fun _ => marker .dedent [] t
  | none => []

/-- Lays out the tokens after `last`, with `depth` brackets open and blocks open at `levels`,
innermost first. The outermost level is column zero and is not listed. -/
def layoutFrom (fault : Option Fault) (depth : Nat) (levels : List Nat) (last : Option Token) :
    List Token → Stream
  | [] => match fault with
    | some f => .failed f
    | none => ⟨closing levels last, none⟩
  | t :: rest =>
    if t.kind = .newline then
      if 0 < depth then layoutFrom fault depth levels (some t) rest
      else
        let blanks := indentation t
        let column := width blanks
        if levels.headD 0 < column then
          .prepend [t, marker .indent blanks t]
            (layoutFrom fault 0 (column :: levels) (some t) rest)
        else
          let closed := levels.takeWhile (column < ·)
          let levels := levels.dropWhile (column < ·)
          let tokens := t :: closed.map fun _ => marker .dedent blanks t
          if levels.headD 0 = column then
            .prepend tokens (layoutFrom fault 0 levels (some t) rest)
          else ⟨tokens, some (.badDedent column (levels.headD 0))⟩
    else if t.kind.isOpener then .cons t (layoutFrom fault (depth + 1) levels (some t) rest)
    else if t.kind.isCloser then
      match depth with
      | 0 => ⟨[t], some .unmatchedCloser⟩
      | depth + 1 => .cons t (layoutFrom fault depth levels (some t) rest)
    else .cons t (layoutFrom fault depth levels (some t) rest)

def layout (s : Stream) : Stream := layoutFrom s.fault 0 [] none s.tokens

end ScopeLint.Layout
