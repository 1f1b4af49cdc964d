/-!
Places in a source text. Lines count from one and columns from zero, which is what reports print.
-/
namespace ScopeLint

structure Position where
  line : Int
  col : Int
deriving DecidableEq, Repr, Inhabited

/-- The place after one more character. Only a line feed starts a line. -/
def Position.advance (p : Position) (c : Char) : Position :=
  if c = '\n' then ⟨p.line + 1, 0⟩ else ⟨p.line, p.col + 1⟩

/-- The place after a piece of text. -/
def Position.after (p : Position) (text : List Char) : Position :=
  text.foldl Position.advance p

/-- Where something stands; either end may be unknown. -/
structure Span where
  start : Option Position := none
  stop : Option Position := none
deriving DecidableEq, Repr, Inhabited

namespace Span

def unknown : Span := {}

def between (start stop : Position) : Span := ⟨some start, some stop⟩

def point (line col : Int) : Span := between ⟨line, col⟩ ⟨line, col⟩

def line (s : Span) : Option Int := s.start.map Position.line

/-- From the start of the first to the end of the second; an unknown span adds nothing. -/
def cover (a b : Span) : Span := ⟨a.start <|> b.start, b.stop <|> a.stop⟩

end Span

/-- What a reader that counts columns from one knows about a stretch of text. -/
structure Extent where
  isEmpty : Bool := false
  line : Option Int := none
  column : Option Int := none
  endLine : Option Int := none
  endColumn : Option Int := none
deriving DecidableEq, Repr, Inhabited

/-- Half of a place is no place: each end needs its line and its column, and an end needs a
start. -/
def Extent.span (e : Extent) : Span :=
  if e.isEmpty then .unknown else
  match e.line, e.column with
  | some line, some column =>
    { start := some ⟨line, column - 1⟩
      stop := match e.endLine, e.endColumn with
        | some endLine, some endColumn => some ⟨endLine, endColumn - 1⟩
        | _, _ => none }
  | _, _ => .unknown

end ScopeLint
