import ScopeLint.Diagnostic
import ScopeLint.Directive

/-!
The scan of raw lines: semicolons at line ends, and directives. It knows comments and strings of one
line, and nothing else of the language.
-/
namespace ScopeLint.LineScan

/-- A line up to its comment, with `quote` open at its start. A backslash in a string takes the next
character with it. -/
def codeFrom (quote : Option Char) (escaped : Bool) : List Char → List Char
  | [] => []
  | c :: rest => match quote with
    | some q =>
      c :: (if escaped then codeFrom quote false rest
        else if c = '\\' then codeFrom quote true rest
        else if c = q then codeFrom none false rest
        else codeFrom quote false rest)
    | none =>
      if c = '\'' ∨ c = '"' then c :: codeFrom (some c) false rest
      else if c = '#' then []
      else c :: codeFrom none false rest

def codePart (line : List Char) : List Char := codeFrom none false line

/-- The suppressed identifiers of the lines that carry a directive. -/
abbrev Filters := List (Int × List String)

structure Result where
  messages : List Diagnostic := []
  filters : Filters := []
deriving DecidableEq, Repr

def endSemicolon (filename : String) (number : Int) (code : List Char) : Diagnostic :=
  { filename
    ident := Check.endSemicolon.ident
    message := Check.endSemicolon.render "" none
    severity := .warning
    startLine := some number
    startCol := some (code.length - 1 : Nat)
    name := ";" }

def lineMessages (filename : String) (number : Int) (line : List Char) : List Diagnostic :=
  let code := Text.trimEnd (codePart (Text.trimEnd line))
  if code.getLast? = some ';' then [endSemicolon filename number code] else []

/-- An empty last word is no directive. -/
def lineFilter (line : List Char) : Option (List String) :=
  Directive.parse (Text.lastPiece ' ' (Text.trimEnd line))

def scanFrom (filename : String) (number : Int) : List (List Char) → Result
  | [] => {}
  | line :: lines =>
    let after := scanFrom filename (number + 1) lines
    { messages := lineMessages filename number line ++ after.messages
      filters := ((lineFilter line).map (number, ·)).toList ++ after.filters }

def scan (code filename : String) : Result :=
  scanFrom filename 1 (Text.splitAt '\n' code.toList)

end ScopeLint.LineScan
