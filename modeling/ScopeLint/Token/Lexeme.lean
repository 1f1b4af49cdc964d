import ScopeLint.Text.Digit
import ScopeLint.Token

/-!
Lexemes: what the characters at one place of a source stand for. Each scanner answers with the
length of its match at the head of the text, and `lexeme` takes the first scanner that matches.
-/
namespace ScopeLint.Lexeme

/-- What a lexeme becomes: a token of some kind, or nothing. -/
inductive Class where
  | token (kind : Kind)
  | skipped
deriving DecidableEq, Repr

def isNameStart (c : Char) : Bool := c.isAlpha || c = '_' || c = '$'

def isNameChar (c : Char) : Bool := isNameStart c || c.isDigit

def isHexDigit (c : Char) : Bool :=
  c.isDigit || ('a' ≤ c && c ≤ 'f') || ('A' ≤ c && c ≤ 'F')

/-- Blanks inside a line. A form feed is one of them but is no indentation. -/
def isGap (c : Char) : Bool := c = '\t' || c = ' ' || c = '\x0c'

def isIndentation (c : Char) : Bool := c = '\t' || c = ' '

def count (p : Char → Bool) (s : List Char) : Nat := (s.takeWhile p).length

/-- The length of a match that has to take something. -/
def positive (n : Nat) : Option Nat := if n = 0 then none else some n

/-- A letter directly before a quote belongs to the string. -/
def isStringMark (c : Char) : Bool :=
  c = 'r' || c = 'R' || c = 'b' || c = 'B' || c = 'u' || c = 'U'

def isQuote (c : Char) : Bool := c = '"' || c = '\''

/-- Up to and with the closing quote, on one line. A backslash takes the next character with it. -/
def closeShort (quote : Char) : (escaped : Bool) → List Char → Option Nat
  | _, [] => none
  | escaped, c :: rest =>
    if c = '\n' then none
    else if escaped then (closeShort quote false rest).map (· + 1)
    else if c = quote then some 1
    else (closeShort quote (c = '\\') rest).map (· + 1)

/-- Up to and with three closing quotes, over any number of lines. -/
def closeLong (quote : Char) : (escaped : Bool) → List Char → Option Nat
  | _, [] => none
  | escaped, c :: rest =>
    if escaped then (closeLong quote false rest).map (· + 1)
    else if [quote, quote, quote].isPrefixOf (c :: rest) then some 3
    else (closeLong quote (c = '\\') rest).map (· + 1)

/-- A quoted literal without its letter. An opening quote that is followed by two more opens a long
literal, and nothing else. -/
def quotedAt : List Char → Option (Nat × Kind)
  | [] => none
  | quote :: rest =>
    if !isQuote quote then none
    else if [quote, quote].isPrefixOf rest then
      (closeLong quote false (rest.drop 2)).map fun n => (n + 3, .longString)
    else (closeShort quote false rest).map fun n => (n + 1, .string)

def stringAt : List Char → Option (Nat × Kind)
  | [] => none
  | c :: rest =>
    if isStringMark c then (quotedAt rest).map fun (n, kind) => (n + 1, kind)
    else quotedAt (c :: rest)

def hexNumber : List Char → Option Nat
  | '0' :: x :: rest =>
    if x = 'x' || x = 'X' then (positive (count isHexDigit rest)).map (· + 2) else none
  | _ => none

/-- The length of an exponent, zero if there is none. -/
def exponent : List Char → Nat
  | e :: rest =>
    if e = 'e' || e = 'E' then
      let sign := match rest with
        | c :: _ => if c = '+' || c = '-' then 1 else 0
        | [] => 0
      match count Text.isDecimalDigit (rest.drop sign) with
      | 0 => 0
      | digits => 1 + sign + digits
    else 0
  | [] => 0

/-- The length of a point and the digits after it, zero if there is no point. -/
def fraction : List Char → Nat
  | '.' :: rest => 1 + count Text.isDecimalDigit rest
  | _ => 0

def decimalNumber (s : List Char) : Option Nat :=
  (positive (count Text.isDecimalDigit s)).map fun whole =>
    let point := fraction (s.drop whole)
    whole + point + exponent (s.drop (whole + point))

def numberAt (s : List Char) : Option Nat := hexNumber s <|> decimalNumber s

def nameAt : List Char → Option Nat
  | c :: rest => if isNameStart c then some (1 + count isNameChar rest) else none
  | [] => none

/-- Line ends with the indentation after them, and comments, as many as follow each other. The
first argument tells where the text before left off. -/
def breakLength : (inside : Option Bool) → List Char → Nat
  | _, [] => 0
  | inside, c :: rest =>
    if c = '\n' then 1 + breakLength (some false) rest
    else if inside = some true then 1 + breakLength (some true) rest
    else if c = '#' then 1 + breakLength (some true) rest
    else if c = '\r' ∧ rest.head? = some '\n' then 1 + breakLength none rest
    else if inside = some false ∧ isIndentation c then 1 + breakLength (some false) rest
    else 0

/-- A backslash that ends a line joins it to the next. -/
def continuationAt : List Char → Option Nat
  | '\\' :: rest =>
    let gap := count isGap rest
    match rest.drop gap with
    | '\n' :: _ => some (gap + 2)
    | '\r' :: '\n' :: _ => some (gap + 3)
    | _ => none
  | _ => none

def operatorAt (s : List Char) : Option (Nat × Kind) :=
  (Token.operators.find? fun (text, _) => text.toList.isPrefixOf s).map
    fun (text, kind) => (text.length, kind)

def wordKind (word : List Char) : Kind :=
  (Token.keywords.lookup (String.ofList word)).getD .name

/-- The lexeme at the head of the text: its class and its length. -/
def lexeme (s : List Char) : Option (Class × Nat) :=
  ((stringAt s).map fun (n, kind) => (.token kind, n)) <|>
  ((numberAt s).map fun n => (.token .number, n)) <|>
  ((nameAt s).map fun n => (.token (wordKind (s.take n)), n)) <|>
  ((positive (breakLength none s)).map fun n => (.token .newline, n)) <|>
  ((continuationAt s).map fun n => (.skipped, n)) <|>
  ((positive (count isGap s)).map fun n => (.skipped, n)) <|>
  ((operatorAt s).map fun (n, kind) => (.token kind, n))

end ScopeLint.Lexeme
