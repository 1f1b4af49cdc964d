/-!
The catalog of checks: what the linter reports, under which identifier and in which words.
-/
namespace ScopeLint

inductive Check where
  | undefinedName
  | unusedImport
  | unusedLocal
  | loopShadowed
  | extraSemicolon
  | endSemicolon
  | functionInBranch
  | syntaxError
deriving DecidableEq, Repr

namespace Check

def all : List Check :=
  [undefinedName, unusedImport, unusedLocal, loopShadowed, extraSemicolon, endSemicolon,
    functionInBranch, syntaxError]

def ident : Check → String
  | undefinedName => "undef"
  | unusedImport => "unused-import"
  | unusedLocal => "unused-local"
  | loopShadowed => "loop-shadowed"
  | extraSemicolon => "extra-semicolon"
  | endSemicolon => "eol-semicolon"
  | functionInBranch => "func-in-branch"
  | syntaxError => "syntax-err"

def idents : List String := all.map ident

def ofIdent? (ident : String) : Option Check := all.find? (·.ident == ident)

/-- The message, with `{name}` and `{line}` standing for what is not known yet. -/
def template : Check → String
  | undefinedName => "undefined symbol: \"\x7bname\x7d\""
  | unusedImport => "\"\x7bname\x7d\" is imported but not used"
  | unusedLocal => "\"\x7bname\x7d\" is defined but not used"
  | loopShadowed =>
    "The loop variable \"\x7bname\x7d\" was previously used in this scope at line: \x7bline\x7d"
  | extraSemicolon => "This semi-colon is not needed"
  | endSemicolon => "Semi-colons at the end of the line are unnecessary"
  | functionInBranch =>
    "JavaScript in strict mode does not allow the definition of named functions/classes " ++
      "inside a branch such as an if/try/switch"
  | syntaxError => "A syntax error caused compilation to abort"

/-- Puts `value` in place of each occurrence of `key`, from left to right. The counter tells how
much of an occurrence is still to be passed over. -/
def substitute (key value : List Char) : Nat → List Char → List Char
  | _, [] => []
  | skip + 1, _ :: rest => substitute key value skip rest
  | 0, c :: rest =>
    if key.isPrefixOf (c :: rest) then value ++ substitute key value (key.length - 1) rest
    else c :: substitute key value 0 rest

/-- The name goes in first, so a `{line}` inside it is filled in as well. -/
def render (check : Check) (name : String) (line : Option Int) : String :=
  let named := substitute "\x7bname\x7d".toList name.toList 0 check.template.toList
  let number := (line.map toString).getD ""
  String.ofList (substitute "\x7bline\x7d".toList number.toList 0 named)

end Check
end ScopeLint
