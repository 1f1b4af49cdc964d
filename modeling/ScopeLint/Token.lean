import ScopeLint.Span

/-!
Tokens of a source. The kind of a token is all that the grammar looks at; operators that the grammar
never tells apart share a kind, and the text says which one it is.
-/
namespace ScopeLint

inductive Kind where
  | name | number | string | longString
  | newline | indent | dedent
  /-- A semicolon between two statements. -/
  | separator
  /-- A semicolon with no statement before it. -/
  | emptyStatement
  -- keywords
  | passWord | breakWord | continueWord | returnWord | raiseWord | delWord | assertWord
  | globalWord | nonlocalWord | importWord | asWord | fromWord
  | ifWord | elifWord | elseWord | whileWord | forWord | inWord
  | tryWord | exceptWord | finallyWord | withWord | defWord | classWord
  | lambdaWord | orWord | andWord | notWord | isWord | noneWord | trueWord | falseWord
  -- brackets and punctuation
  | openParen | closeParen | openBracket | closeBracket | openBrace | closeBrace
  | comma | dot | colon | atSign | assign
  -- operators
  | augmented | relation | shift | sign | star | doubleStar | divide
  | bar | caret | ampersand | tilde
deriving DecidableEq, Repr

namespace Kind

def isOpener : Kind → Bool
  | openParen | openBracket | openBrace => true
  | _ => false

def isCloser : Kind → Bool
  | closeParen | closeBracket | closeBrace => true
  | _ => false

/-- The kinds that layout puts between statements. -/
def isStructural : Kind → Bool
  | newline | indent | dedent => true
  | _ => false

end Kind

structure Token where
  kind : Kind
  text : String
  start : Position
  stop : Position
deriving DecidableEq, Repr

namespace Token

def span (t : Token) : Span := .between t.start t.stop

def keywords : List (String × Kind) := [
  ("pass", .passWord), ("break", .breakWord), ("continue", .continueWord),
  ("return", .returnWord), ("raise", .raiseWord), ("del", .delWord), ("assert", .assertWord),
  ("global", .globalWord), ("nonlocal", .nonlocalWord), ("import", .importWord), ("as", .asWord),
  ("from", .fromWord), ("if", .ifWord), ("elif", .elifWord), ("else", .elseWord),
  ("while", .whileWord), ("for", .forWord), ("in", .inWord), ("try", .tryWord),
  ("except", .exceptWord), ("finally", .finallyWord), ("with", .withWord), ("def", .defWord),
  ("class", .classWord), ("lambda", .lambdaWord), ("or", .orWord), ("and", .andWord),
  ("not", .notWord), ("is", .isWord), ("None", .noneWord), ("True", .trueWord),
  ("False", .falseWord)]

/-- Operators and punctuation, longer ones before their beginnings. -/
def operators : List (String × Kind) := [
  ("**=", .augmented), ("//=", .augmented), ("<<=", .augmented), (">>=", .augmented),
  ("+=", .augmented), ("-=", .augmented), ("*=", .augmented), ("/=", .augmented),
  ("%=", .augmented), ("&=", .augmented), ("|=", .augmented), ("^=", .augmented),
  ("==", .relation), (">=", .relation), ("<=", .relation), ("!=", .relation),
  ("<<", .shift), (">>", .shift), ("//", .divide), ("**", .doubleStar),
  ("=", .assign), (",", .comma), ("(", .openParen), (")", .closeParen), ("[", .openBracket),
  ("]", .closeBracket), ("\x7b", .openBrace), ("\x7d", .closeBrace), (":", .colon), (".", .dot),
  ("@", .atSign), ("<", .relation), (">", .relation), ("|", .bar), ("^", .caret),
  ("&", .ampersand), ("+", .sign), ("-", .sign), ("*", .star), ("/", .divide), ("%", .divide),
  ("~", .tilde), (";", .separator)]

end Token
end ScopeLint
