import ScopeLint.Diagnostic
import ScopeLint.Text.Quoted

/-!
Diagnostics as JSON, one object to a line, in ASCII.
-/
namespace ScopeLint.Diagnostic

/-- A code point past the basic plane is written as its two halves. -/
def escapeUnits (n : Nat) : List Char :=
  let unit (u : Nat) := '\\' :: 'u' :: Text.hexDigits 4 u
  if n < 0x10000 then unit n
  else unit (0xD800 + (n - 0x10000) / 0x400) ++ unit (0xDC00 + (n - 0x10000) % 0x400)

def jsonChar (c : Char) : List Char :=
  if c = '"' ∨ c = '\\' then ['\\', c]
  else if c = '\n' then ['\\', 'n']
  else if c = '\r' then ['\\', 'r']
  else if c = '\t' then ['\\', 't']
  else if c.toNat = 8 then ['\\', 'b']
  else if c.toNat = 12 then ['\\', 'f']
  else if 0x20 ≤ c.toNat ∧ c.toNat < 0x7F then [c]
  else escapeUnits c.toNat

def jsonText (s : String) : String :=
  "\"" ++ String.ofList (s.toList.flatMap jsonChar) ++ "\""

def jsonNumber (n : Option Int) : String := (n.map toString).getD "null"

def json (d : Diagnostic) : String :=
  let fields := [
    ("filename", jsonText d.filename),
    ("ident", jsonText d.ident),
    ("message", jsonText d.message),
    ("level", jsonText d.severity.label),
    ("start_line", jsonNumber d.startLine),
    ("start_col", jsonNumber d.startCol),
    ("end_line", jsonNumber d.endLine),
    ("end_col", jsonNumber d.endCol),
    ("name", jsonText d.name),
    ("other_line", jsonNumber d.otherLine)]
  let entries := fields.map fun (key, value) => jsonText key ++ ": " ++ value
  "\x7b" ++ String.intercalate ", " entries ++ "\x7d"

end ScopeLint.Diagnostic
